import Cs537.Lib.Decimal
import Cs537.Lib.Search
import Cs537.P6.Classification

/-!
# The delay of a request

`extractDelayTime` looks for `Delay: ` anywhere in the request and reads the number behind its first
occurrence. This is the value of the Delay header if no other line holds that text before it.
-/

namespace Cs537.P6

open Cs537.Lib

/-! ## The function -/

def delayHeader : Bytes := ascii "Delay: "

/-- `extractDelayTime` (`proxyserver.c:53-96`), for a `malloc` that succeeds. There is no end of
line in `Delay: `, so `lineEnd` is at least its length. -/
def extractDelayTime (request : Bytes) : Int :=
  match strstr request delayHeader with
  | none => -1
  | some delayPosition =>
    match strstr (request.drop delayPosition) (ascii "\r\n") with
    | none => -1
    | some lineEnd =>
      let delayLength := lineEnd - delayHeader.length
      atoi (strncpy (request.drop (delayPosition + delayHeader.length)) delayLength ++ [0])

/-! ## The header -/

/-- A header line whose name is `Delay`. -/
def NamedDelay (h : Bytes) : Prop := ascii "Delay:" <+: h

/-- A Delay header with a decimal number as its value, and white space around the value. -/
inductive IsDelay : Bytes → Nat → Prop
  | intro {gap ds behind : Bytes} : (∀ b ∈ gap, b = 32 ∨ b = 9) → ds ≠ [] →
      (∀ b ∈ ds, isdigit b = true) → (∀ b ∈ behind, b = 32 ∨ b = 9) → decimal ds < 2 ^ 31 →
      IsDelay (ascii "Delay:" ++ (gap ++ (ds ++ behind))) (decimal ds)

/-- The delay that headers ask for, at most one of which is a Delay header. -/
inductive Asks : List Bytes → Int → Prop
  | none {headers : List Bytes} : (∀ h ∈ headers, ¬ NamedDelay h) → Asks headers (-1)
  | one {before after : List Bytes} {h : Bytes} {n : Nat} : (∀ l ∈ before, ¬ NamedDelay l) →
      (∀ l ∈ after, ¬ NamedDelay l) → IsDelay h n → Asks (before ++ h :: after) n

/-- A line in which the text is found that the function looks for. -/
def HasDelay (line : Bytes) : Prop := delayHeader <:+: line

instance : DecidablePred HasDelay := fun line => inferInstanceAs (Decidable (_ <:+: line))

namespace HttpRequest

def requestLine (req : HttpRequest) : Bytes := req.start ++ req.version

/-- The request line and the headers. -/
def allLines (req : HttpRequest) : List Bytes := req.requestLine :: req.headers

/-- No header asks for a delay and no line looks as if; or the first line that does is the Delay
header, with a blank behind the colon; or the first line that does is another one, and behind the
first occurrence there it spells the right number. -/
inductive DelayOk (req : HttpRequest) (delay : Int) : Prop
  | absent : (∀ h ∈ req.headers, ¬ NamedDelay h) → (∀ l ∈ req.allLines, ¬ HasDelay l) →
      DelayOk req delay
  | header {h : Bytes} : req.allLines.find? (HasDelay ·) = some h → delayHeader <+: h →
      DelayOk req delay
  | other {line : Bytes} {k : Nat} : req.allLines.find? (HasDelay ·) = some line →
      ¬ delayHeader <+: line → firstAt delayHeader line = some k →
      Spells (line.drop (k + delayHeader.length)) delay → DelayOk req delay

end HttpRequest

/-! ## Lines -/

theorem firstAt_line {w line rest : Bytes} (hne : w ≠ []) (hcr : (13 : UInt8) ∉ w)
    (hlf : (10 : UInt8) ∉ w) : firstAt w (line ++ 13 :: 10 :: rest) =
      (firstAt w line).or ((firstAt w rest).map (· + (line.length + 2))) := by
  have hend := firstAt_append_cons (l := []) (s := rest) hne hlf
  rw [List.nil_append] at hend
  rw [firstAt_append_cons hne hcr, hend]
  cases firstAt w line with
  | some k => rfl
  | none => cases firstAt w rest <;> simp [firstAt, hne, Nat.add_assoc, Nat.add_comm 1]

/-- The first line with the text, and the place in it, is where the text is found in all lines. -/
theorem firstAt_lines (ls : List Bytes) {rest : Bytes} (hrest : firstAt delayHeader rest = none) :
    (∀ l ∈ ls, ¬ HasDelay l) ∧ firstAt delayHeader (HttpRequest.lines ls ++ rest) = none ∨
      ∃ before line after k, ls = before ++ line :: after ∧
        ls.find? (HasDelay ·) = some line ∧ firstAt delayHeader line = some k ∧
        firstAt delayHeader (HttpRequest.lines ls ++ rest) =
          some ((HttpRequest.lines before).length + k) := by
  induction ls with
  | nil => exact .inl ⟨by simp, hrest⟩
  | cons l ls ih =>
    have hsplit : HttpRequest.lines (l :: ls) ++ rest =
        l ++ 13 :: 10 :: (HttpRequest.lines ls ++ rest) := by
      simp [HttpRequest.lines]
    rw [hsplit, firstAt_line (by decide) (by decide) (by decide)]
    cases hk : firstAt delayHeader l with
    | some k =>
      have hl : HasDelay l := by
        by_contra hl
        rw [firstAt_eq_none_iff.mpr hl] at hk
        cases hk
      exact .inr ⟨[], l, ls, k, rfl, by simp [hl], hk, by simp [HttpRequest.lines]⟩
    | none =>
      have hl : ¬ HasDelay l := firstAt_eq_none_iff.mp hk
      rcases ih with ⟨hnone, hfirst⟩ | ⟨before, line, after, k, rfl, hfind, hline, hfirst⟩
      · refine .inl ⟨?_, by rw [hfirst]; rfl⟩
        simpa [hl] using hnone
      · refine .inr ⟨l :: before, line, after, k, rfl, ?_, hline, ?_⟩
        · rw [List.find?_cons_of_neg (by simpa using hl), hfind]
        · rw [hfirst]
          simp [HttpRequest.lines]
          omega

/-- In a line of a request there is no NUL and no end of line. -/
def PlainLine (line : Bytes) : Prop := ∀ b ∈ line, b ≠ 0 ∧ b ≠ 13 ∧ b ≠ 10

theorem zero_notMem_lines {ls : List Bytes} (h : ∀ l ∈ ls, PlainLine l) :
    (0 : UInt8) ∉ HttpRequest.lines ls := by
  intro hzero
  simp only [HttpRequest.lines, List.mem_flatMap, List.mem_append, List.mem_cons,
    List.not_mem_nil, or_false] at hzero
  obtain ⟨l, hl, hzero | hzero | hzero⟩ := hzero
  · exact (h l hl 0 hzero).1 rfl
  · exact absurd hzero (by decide)
  · exact absurd hzero (by decide)

/-- Where the text is found, the rest of its line is read. -/
theorem extractDelayTime_found {front b behind : Bytes} (hb : PlainLine b)
    (hposition : strstr (front ++ (delayHeader ++ (b ++ 13 :: 10 :: behind))) delayHeader =
      some front.length) :
    extractDelayTime (front ++ (delayHeader ++ (b ++ 13 :: 10 :: behind))) = atoi b := by
  have hzero : (0 : UInt8) ∉ delayHeader ++ b := by
    rw [List.mem_append, not_or]
    exact ⟨by decide, fun hmem => (hb 0 hmem).1 rfl⟩
  have hcr : (13 : UInt8) ∉ delayHeader ++ b := by
    rw [List.mem_append, not_or]
    exact ⟨by decide, fun hmem => (hb 13 hmem).2.1 rfl⟩
  have hend : strstr (delayHeader ++ (b ++ 13 :: 10 :: behind)) (ascii "\r\n") =
      some (delayHeader ++ b).length := by
    rw [strstr, ← List.append_assoc, cstr_append_of_zero_notMem hzero]
    exact firstAt_append_of_notMem (w := [10]) hcr (cstr behind)
  have hvalue : (front ++ (delayHeader ++ (b ++ 13 :: 10 :: behind))).drop
      (front.length + delayHeader.length) = b ++ 13 :: 10 :: behind := by
    rw [← List.drop_drop, List.drop_left, List.drop_left]
  rw [extractDelayTime, hposition]
  simp only [List.drop_left, hend, hvalue]
  rw [List.length_append, Nat.add_sub_cancel_left, strncpy_append fun hmem => (hb 0 hmem).1 rfl,
    atoi_append_terminator]

/-- What the function returns for lines, with a blank line behind them. -/
theorem extractDelayTime_lines {ls : List Bytes} (h : ∀ l ∈ ls, PlainLine l) (rest : Bytes) :
    (∀ l ∈ ls, ¬ HasDelay l) ∧
        extractDelayTime (HttpRequest.lines ls ++ 13 :: 10 :: 0 :: rest) = -1 ∨
      ∃ line k, line ∈ ls ∧ ls.find? (HasDelay ·) = some line ∧
        firstAt delayHeader line = some k ∧
        extractDelayTime (HttpRequest.lines ls ++ 13 :: 10 :: 0 :: rest) =
          atoi (line.drop (k + delayHeader.length)) := by
  have hplain := zero_notMem_lines h
  have hstring : cstr (HttpRequest.lines ls ++ 13 :: 10 :: 0 :: rest) =
      HttpRequest.lines ls ++ [13, 10] := by
    rw [cstr_append_of_zero_notMem hplain]
    rfl
  rcases firstAt_lines ls (by decide : firstAt delayHeader [13, 10] = none) with
    ⟨hnone, hfirst⟩ | ⟨before, line, after, k, rfl, hfind, hline, hfirst⟩
  · refine .inl ⟨hnone, ?_⟩
    rw [extractDelayTime, strstr, hstring]
    simp only [show cstr delayHeader = delayHeader by decide, hfirst]
  · obtain ⟨⟨a, b, rfl, rfl⟩, -⟩ := firstAt_eq_some hline
    refine .inr ⟨_, _, by simp, hfind, hline, ?_⟩
    -- the text in front of the number, the number, and what follows the line
    obtain ⟨front, hfront⟩ : ∃ front, front = HttpRequest.lines before ++ a := ⟨_, rfl⟩
    obtain ⟨behind, hbehind⟩ : ∃ behind,
        behind = HttpRequest.lines after ++ 13 :: 10 :: 0 :: rest := ⟨_, rfl⟩
    have hrequest : HttpRequest.lines (before ++ (a ++ (delayHeader ++ b)) :: after) ++
        13 :: 10 :: 0 :: rest = front ++ (delayHeader ++ (b ++ 13 :: 10 :: behind)) := by
      simp [HttpRequest.lines, hfront, hbehind]
    have hb : PlainLine b := fun x hx => h (a ++ (delayHeader ++ b)) (by simp) x (by simp [hx])
    have hposition : strstr (front ++ (delayHeader ++ (b ++ 13 :: 10 :: behind))) delayHeader =
        some front.length := by
      rw [strstr, ← hrequest, hstring, show cstr delayHeader = delayHeader by decide, hfirst,
        hfront, List.length_append]
    rw [hrequest, extractDelayTime_found hb hposition, ← List.drop_drop, List.drop_left,
      List.drop_left]

namespace HttpRequest

theorem plainLine_requestLine (req : HttpRequest) : PlainLine req.requestLine := by
  have hfree : 0 ∉ req.version ∧ 13 ∉ req.version ∧ 10 ∉ req.version := by
    unfold version
    generalize req.minor = d
    revert d
    decide
  have hversion : PlainLine req.version := by
    intro b hb
    refine ⟨?_, ?_, ?_⟩
    · rintro rfl
      exact hfree.1 hb
    · rintro rfl
      exact hfree.2.1 hb
    · rintro rfl
      exact hfree.2.2 hb
  have hmethod : PlainLine req.method := by
    intro b hb
    have hlow := (req.method_letters b hb).1
    rw [UInt8.le_iff_toNat_le] at hlow
    refine ⟨?_, ?_, ?_⟩ <;> (rintro rfl; exact absurd hlow (by decide))
  have hpath : PlainLine req.path := fun b hb =>
    ⟨(req.path_bytes b hb).1, (req.path_bytes b hb).2.2⟩
  intro b hb
  simp only [requestLine, start, List.mem_append, List.mem_cons, List.not_mem_nil, or_false] at hb
  rcases hb with (hb | rfl | hb | rfl) | hb
  · exact hmethod b hb
  · decide
  · exact hpath b hb
  · decide
  · exact hversion b hb

theorem plainLine_of_mem_allLines {req : HttpRequest} : ∀ l ∈ req.allLines, PlainLine l := by
  intro l hl
  rcases List.mem_cons.mp hl with rfl | hl
  · exact req.plainLine_requestLine
  · exact req.header_bytes l hl

theorem text_eq_lines {req : HttpRequest} (hbody : req.body = []) :
    req.text = lines req.allLines ++ [13, 10] := by
  simp [text, hbody, allLines, lines, requestLine]

/-- The request line does not begin as a Delay header does: the method has no small letters. -/
theorem not_delayHeader_prefix_requestLine (req : HttpRequest) :
    ¬ delayHeader <+: req.requestLine := by
  have hletters := req.method_letters
  have hsecond : delayHeader = 68 :: 101 :: ascii "lay: " := by decide
  rw [requestLine, start, hsecond]
  cases hmethod : req.method with
  | nil => simp [List.cons_prefix_cons]
  | cons x method =>
    cases method with
    | nil => simp [List.cons_prefix_cons]
    | cons y method =>
      rw [hmethod] at hletters
      have hy := (hletters y (by simp)).2
      simp only [List.cons_append, List.cons_prefix_cons]
      rintro ⟨-, rfl, -⟩
      exact absurd hy (by decide)

end HttpRequest

/-- The value of a Delay header with a blank behind the colon. -/
theorem IsDelay.atoi_value {h : Bytes} {n : Nat} (hdelay : IsDelay h n)
    (hblank : delayHeader <+: h) : atoi (h.drop delayHeader.length) = n := by
  obtain ⟨hgap, hne, hds, hbehind, hlt⟩ := hdelay
  rename_i gap ds behind
  have hname : delayHeader = ascii "Delay:" ++ [32] := by decide
  have hspace {b : UInt8} (hb : b = 32 ∨ b = 9) : isspace b = true ∧ isdigit b = false := by
    rcases hb with rfl | rfl <;> decide
  rw [hname, List.prefix_append_right_inj] at hblank
  cases gap with
  | nil =>
    -- no blank: the value itself would begin with one
    obtain ⟨d, ds', rfl⟩ := List.exists_cons_of_ne_nil hne
    rw [List.nil_append, List.cons_append, List.cons_prefix_cons] at hblank
    have hd := hds d List.mem_cons_self
    rw [← hblank.1] at hd
    exact absurd hd (by decide)
  | cons c gap =>
    have hdrop : (ascii "Delay:" ++ (c :: gap ++ (ds ++ behind))).drop delayHeader.length =
        gap ++ (ds ++ behind) := rfl
    rw [hdrop]
    refine atoi_eq_decimal ?_ hds hne ?_ hlt
    · exact fun b hb => (hspace (hgap b (List.mem_cons_of_mem c hb))).1
    · exact fun b hb => (hspace (hbehind b (List.mem_of_mem_head? hb))).2

theorem IsDelay.named {h : Bytes} {n : Nat} (hdelay : IsDelay h n) : NamedDelay h := by
  cases hdelay
  exact List.prefix_append _ _

theorem Asks.of_none {headers : List Bytes} {delay : Int} (hasks : Asks headers delay)
    (hnone : ∀ h ∈ headers, ¬ NamedDelay h) : delay = -1 := by
  cases hasks with
  | none => rfl
  | one _ _ hdelay => exact absurd hdelay.named (hnone _ (by simp))

/-- The header that is named Delay has the number. -/
theorem Asks.of_named {headers : List Bytes} {delay : Int} (hasks : Asks headers delay) {h : Bytes}
    (hmem : h ∈ headers) (hnamed : NamedDelay h) : ∃ n : Nat, IsDelay h n ∧ delay = n := by
  cases hasks with
  | none hnone => exact absurd hnamed (hnone h hmem)
  | one hbefore hafter hdelay =>
    rcases List.mem_append.mp hmem with hmem | hmem
    · exact absurd hnamed (hbefore h hmem)
    · rcases List.mem_cons.mp hmem with rfl | hmem
      · exact ⟨_, hdelay, rfl⟩
      · exact absurd hnamed (hafter h hmem)

/-- For a request without a body, `extractDelayTime` returns the delay that its headers ask for if
and only if its lines are not misread. -/
theorem extractDelayTime_iff {req : HttpRequest} (hbody : req.body = []) {delay : Int}
    (hasks : Asks req.headers delay) (rest : Bytes) :
    extractDelayTime (req.text ++ 0 :: rest) = delay ↔ req.DelayOk delay := by
  have hlines := extractDelayTime_lines req.plainLine_of_mem_allLines rest
  rw [HttpRequest.text_eq_lines hbody, List.append_assoc, List.cons_append, List.cons_append,
    List.nil_append]
  rcases hlines with ⟨hnone, hvalue⟩ | ⟨line, k, hmem, hfind, hk, hvalue⟩
  · rw [hvalue]
    have hfind : req.allLines.find? (HasDelay ·) = none := by simpa using hnone
    constructor
    · rintro rfl
      refine .absent ?_ hnone
      intro h hmem hnamed
      obtain ⟨n, -, hn⟩ := hasks.of_named hmem hnamed
      omega
    · intro h
      cases h with
      | absent habsent => exact (hasks.of_none habsent).symm
      | header hfind' => rw [hfind] at hfind'; cases hfind'
      | other hfind' => rw [hfind] at hfind'; cases hfind'
  · have hfree : (0 : UInt8) ∉ line.drop (k + delayHeader.length) := fun hzero =>
      (HttpRequest.plainLine_of_mem_allLines line hmem 0 (List.mem_of_mem_drop hzero)).1 rfl
    rw [hvalue]
    constructor
    · intro hdelay
      by_cases hbegins : delayHeader <+: line
      · exact .header hfind hbegins
      · exact .other hfind hbegins hk ((spells_iff hfree).mpr hdelay)
    · intro h
      cases h with
      | absent _ habsent =>
        have hline : HasDelay line := by simpa using List.find?_some hfind
        exact absurd hline (habsent line hmem)
      | @header l hfind' hbegins =>
        obtain rfl : line = l := Option.some.inj (hfind.symm.trans hfind')
        have hheader : line ∈ req.headers := by
          rcases List.mem_cons.mp hmem with rfl | hheader
          · exact absurd hbegins req.not_delayHeader_prefix_requestLine
          · exact hheader
        have hnamed : NamedDelay line := (by decide : ascii "Delay:" <+: delayHeader).trans hbegins
        obtain ⟨n, hdelay, rfl⟩ := hasks.of_named hheader hnamed
        rw [firstAt_eq_zero hbegins, Option.some.injEq] at hk
        rw [← hk, Nat.zero_add, hdelay.atoi_value hbegins]
      | @other l k' hfind' _ hk' hspells =>
        obtain rfl : line = l := Option.some.inj (hfind.symm.trans hfind')
        obtain rfl : k = k' := Option.some.inj (hk.symm.trans hk')
        exact (spells_iff hfree).mp hspells

/-! ## Requests with a header -/

open Server (plainRequest requestWithHeader)

theorem plainRequest_asks : Asks plainRequest.headers 1 := by
  have hdelay : IsDelay (ascii "Delay:" ++ ([32] ++ (ascii "1" ++ []))) (decimal (ascii "1")) :=
    .intro (by simp) (by decide) (List.all_eq_true.mp (by decide)) (by simp) (by decide)
  have hasks : Asks ([] ++ (ascii "Delay:" ++ ([32] ++ (ascii "1" ++ []))) :: [])
      (decimal (ascii "1") : Nat) := .one (by simp) (by simp) hdelay
  exact hasks

/-- The theorem at a request whose only header is a Delay header. -/
theorem extractDelayTime_iff_plain_request : extractDelayTime (plainRequest.text ++ [0]) = 1 :=
  (extractDelayTime_iff rfl plainRequest_asks []).mpr
    (.header (h := ascii "Delay: 1") (by decide) (by decide))

/-- A request with a header of another name that ends in the same way. -/
def otherDelayRequest : HttpRequest :=
  requestWithHeader (ascii "X-Delay: 5") (by decide +kernel)

/-- No delay is asked for, and the function returns one. -/
theorem other_header_taken_for_delay : Asks otherDelayRequest.headers (-1) ∧
    extractDelayTime (otherDelayRequest.text ++ [0]) = 5 := by
  refine ⟨.none ?_, by decide +kernel⟩
  intro h hh
  obtain rfl : h = ascii "X-Delay: 5" := List.mem_singleton.mp hh
  unfold NamedDelay
  decide

end Cs537.P6
