import Cs537.P6.ServerRuns

/-!
# Which requests are GetJob commands

A listener takes a request for the GetJob command if `/GetJob` occurs anywhere in the string that
its buffer holds. For a request whose path it has read, this is the path itself, or anything that
merely contains the command: another path, a header, the body, or what the buffer held before.
-/

namespace Cs537.P6

open Cs537.Lib Queue

/-! ## Requests -/

/-- A well-formed HTTP request: the method is a word of capital letters, the path has no blank and
no line break, and neither have the headers a line break. The body is arbitrary. -/
structure HttpRequest where
  method : Bytes
  path : Bytes
  minor : Fin 10
  headers : List Bytes
  body : Bytes
  method_letters : ∀ b ∈ method, 65 ≤ b ∧ b ≤ 90
  path_bytes : ∀ b ∈ path, b ≠ 0 ∧ b ≠ 32 ∧ b ≠ 13 ∧ b ≠ 10
  header_bytes : ∀ h ∈ headers, ∀ b ∈ h, b ≠ 0 ∧ b ≠ 13 ∧ b ≠ 10

namespace HttpRequest

/-- The request line up to the blank behind the path. -/
def start (req : HttpRequest) : Bytes := req.method ++ 32 :: (req.path ++ [32])

/-- Lines, each with its end. -/
def lines (ls : List Bytes) : Bytes := ls.flatMap fun l => l ++ [13, 10]

def version (req : HttpRequest) : Bytes := ascii "HTTP/1." ++ [UInt8.ofNat (48 + req.minor.val)]

/-- The text of a request: the request line, the headers, a blank line and the body. -/
def text (req : HttpRequest) : Bytes :=
  req.start ++ (lines (req.version :: req.headers) ++ 13 :: 10 :: req.body)

end HttpRequest

/-! ## Occurrences of the command -/

/-- The command occurs in these bytes. -/
def HasCmd (bs : Bytes) : Prop := getJobCmd <:+: bs

instance (bs : Bytes) : Decidable (HasCmd bs) := inferInstanceAs (Decidable (_ <:+: _))

theorem hasCmd_append_cons_iff {a b : Bytes} {c : UInt8} (hc : c ∉ getJobCmd) :
    HasCmd (a ++ c :: b) ↔ HasCmd a ∨ HasCmd b := infix_append_cons_iff hc

theorem not_hasCmd_nil : ¬ HasCmd [] := by decide

/-- Not in a word without a slash. -/
theorem not_hasCmd_of_slash_notMem {bs : Bytes} (h : (47 : UInt8) ∉ bs) : ¬ HasCmd bs :=
  fun hcmd => h (hcmd.subset (by decide))

/-- In lines, the command occurs in one of them. -/
theorem hasCmd_lines_append_iff (ls : List Bytes) (bs : Bytes) :
    HasCmd (HttpRequest.lines ls ++ bs) ↔ (∃ l ∈ ls, HasCmd l) ∨ HasCmd bs := by
  induction ls with
  | nil => simp [HttpRequest.lines]
  | cons l ls ih =>
    have hsplit : HttpRequest.lines (l :: ls) ++ bs =
        l ++ 13 :: ([] ++ 10 :: (HttpRequest.lines ls ++ bs)) := by
      simp [HttpRequest.lines]
    rw [hsplit, hasCmd_append_cons_iff (by decide), hasCmd_append_cons_iff (by decide), ih]
    simp only [not_hasCmd_nil, false_or, List.mem_cons, exists_eq_or_imp, or_assoc]

namespace HttpRequest

variable {req : HttpRequest} {rest : Bytes}

theorem zero_notMem_method (req : HttpRequest) : (0 : UInt8) ∉ req.method := fun h =>
  absurd (req.method_letters 0 h).1 (by decide)

theorem zero_notMem_path (req : HttpRequest) : (0 : UInt8) ∉ req.path := fun h =>
  (req.path_bytes 0 h).1 rfl

theorem slash_notMem_method (req : HttpRequest) : (47 : UInt8) ∉ req.method := fun h =>
  absurd (req.method_letters 47 h).1 (by decide)

theorem zero_notMem_start (req : HttpRequest) : (0 : UInt8) ∉ req.start := by
  unfold start
  intro h
  rw [List.mem_append, List.mem_cons, List.mem_append, List.mem_singleton] at h
  rcases h with h | h | h | h
  · exact req.zero_notMem_method h
  · exact absurd h (by decide)
  · exact req.zero_notMem_path h
  · exact absurd h (by decide)

/-- Behind the start of a request, the command occurs in its path or in the string that follows. -/
theorem hasCmd_start_append_iff (req : HttpRequest) (behind : Bytes) :
    HasCmd (cstr (req.start ++ behind)) ↔ HasCmd req.path ∨ HasCmd (cstr behind) := by
  have hsplit : req.start ++ cstr behind =
      req.method ++ 32 :: (req.path ++ 32 :: cstr behind) := by
    simp [start]
  rw [cstr_append_of_zero_notMem req.zero_notMem_start, hsplit,
    hasCmd_append_cons_iff (by decide), hasCmd_append_cons_iff (by decide)]
  simp only [not_hasCmd_of_slash_notMem req.slash_notMem_method, false_or]

theorem not_hasCmd_version (req : HttpRequest) : ¬ HasCmd req.version := by
  unfold version
  generalize req.minor = d
  revert d
  decide

/-- In a request that was read whole, what follows the path has the command if a header has it, or
the body with what the buffer holds behind it. -/
theorem hasCmd_behind_iff (req : HttpRequest) (rest : Bytes) :
    HasCmd (cstr ((req.text ++ rest).drop req.start.length)) ↔
      (∃ h ∈ req.headers, HasCmd h) ∨ HasCmd (cstr (req.body ++ rest)) := by
  have hdrop : (req.text ++ rest).drop req.start.length =
      (lines (req.version :: req.headers) ++ [13, 10]) ++ (req.body ++ rest) := by
    simp [text]
  have hzero : (0 : UInt8) ∉ lines (req.version :: req.headers) ++ [13, 10] := by
    intro h
    simp only [lines, List.mem_append, List.mem_flatMap, List.mem_cons, List.not_mem_nil,
      or_false] at h
    rcases h with ⟨l, rfl | hl, h | h | h⟩ | h | h
    · revert h
      unfold version
      generalize req.minor = d
      revert d
      decide
    · exact absurd h (by decide)
    · exact absurd h (by decide)
    · exact (req.header_bytes l hl 0 h).1 rfl
    · exact absurd h (by decide)
    · exact absurd h (by decide)
    · exact absurd h (by decide)
    · exact absurd h (by decide)
  rw [hdrop, cstr_append_of_zero_notMem hzero, List.append_assoc, hasCmd_lines_append_iff,
    List.cons_append, List.cons_append, List.nil_append]
  have hend := @hasCmd_append_cons_iff [] (10 :: cstr (req.body ++ rest)) 13 (by decide)
  have hend' := @hasCmd_append_cons_iff [] (cstr (req.body ++ rest)) 10 (by decide)
  rw [List.nil_append] at hend hend'
  rw [hend, hend']
  simp only [not_hasCmd_nil, false_or, List.mem_cons, exists_eq_or_imp, req.not_hasCmd_version]

end HttpRequest

/-! ## What the listener does -/

/-- The listener has read `n` bytes of the request, the path and the blank behind it among them, in
front of what the buffer held before. -/
structure ReadsRequest (r : Request) (req : HttpRequest) (n : Nat) (rest : Bytes) : Prop where
  buffer : r.buffer = req.text.take n ++ rest
  path_read : req.start.length ≤ n

/-- The buffer begins with the start of the request. -/
theorem ReadsRequest.split {r : Request} {req : HttpRequest} {n : Nat} {rest : Bytes}
    (h : ReadsRequest r req n rest) :
    r.buffer = req.start ++ r.buffer.drop req.start.length := by
  have htake : req.start <+: r.buffer := by
    rw [h.buffer, HttpRequest.text, List.take_append, List.take_of_length_le h.path_read,
      List.append_assoc]
    exact List.prefix_append _ _
  obtain ⟨behind, hbehind⟩ := htake
  rw [← hbehind, List.drop_left]

namespace Server

variable {numListener numWorkers : Nat} {s : Server numListener numWorkers} {maxQueueSize : Int}

/-- Only the GetJob command makes the listener look for a job to take. For any other request it
goes on to `add_work`, which takes no job from the list. -/
structure HandledByPath (maxQueueSize : Int) (s : Server numListener numWorkers)
    (i : Fin numListener) (r : Request) (path : Bytes) : Prop where
  getJob : path = getJobCmd →
    next maxQueueSize s (.accept i r) = some (s.setListener i .testEmpty)
  other : path ≠ getJobCmd →
    next maxQueueSize s (.accept i r) = some (s.setListener i (.addWork r)) ∧
      ∀ (t t' : Server numListener numWorkers) (l : List Nat), t.listeners i = .addWork r →
        t.Counts l → next maxQueueSize t (.addWork i) = some t' → ∃ l', t'.Counts l' ∧ l ⊆ l'

/-- The insertion region takes no job from the list. -/
theorem Counts.addWork_subset {t t' : Server numListener numWorkers} {l : List Nat}
    (h : t.Counts l) {i : Fin numListener}
    (hnext : next maxQueueSize t (.addWork i) = some t') : ∃ l', t'.Counts l' ∧ l ⊆ l' := by
  cases steps_of_next hnext with
  | @addWork _ r _ _ =>
    by_cases hfull : (l.length : Int) = maxQueueSize
    · rcases h.addWork i r with ⟨-, heq⟩ | ⟨hroom, -⟩
      · rw [heq]
        exact ⟨l, h.setListener i _, List.Subset.refl l⟩
      · exact absurd hfull hroom
    · have hsize : t.queue.queueSize ≠ maxQueueSize := by rwa [h.size]
      obtain ⟨q, hq, hholds, -, -, -, -, hqsize⟩ :=
        h.holds.addJob (newJobOf r.buffer r.clientFd r.bytesRead) hsize
      have hadd : P6.addWork t.queue t.queue.jobQueueHead r.buffer maxQueueSize r.clientFd
          r.bytesRead = some (q, true) := hq
      refine ⟨l.orderedInsert (Outranks q.priorityOf) t.queue.brk, ?_, ?_⟩
      · simp only [Server.addWork, hadd]
        refine ⟨⟨hholds.chain, hholds.fresh⟩, ?_⟩
        simp [hqsize, h.size, List.orderedInsert_length]
      · intro a ha
        exact (List.mem_orderedInsert _).mpr (.inr ha)

theorem next_accept (hlive : s.crashed = false) {i : Fin numListener}
    (hidle : s.listeners i = .idle) (r : Request) :
    next maxQueueSize s (.accept i r) =
      some (s.setListener i (if r.isGetJob then .testEmpty else .addWork r)) :=
  if_pos ⟨hlive, hidle⟩

/-- The listener handles a request by its path exactly if the test says what the path is. -/
theorem handledByPath_iff_isGetJob (hlive : s.crashed = false) {i : Fin numListener}
    (hidle : s.listeners i = .idle) (r : Request) (path : Bytes) :
    s.HandledByPath maxQueueSize i r path ↔ (r.isGetJob = true ↔ path = getJobCmd) := by
  have haccept := @next_accept _ _ _ maxQueueSize hlive i hidle r
  have hpc {pc pc' : ListenerPc} (h : some (s.setListener i pc) = some (s.setListener i pc')) :
      pc = pc' := by
    have hsame := congrFun (congrArg Server.listeners (Option.some.inj h)) i
    simpa [setListener] using hsame
  constructor
  · intro h
    constructor
    · intro hcmd
      by_contra hpath
      have hother := (h.other hpath).1
      rw [haccept, if_pos hcmd] at hother
      cases hpc hother
    · intro hpath
      have hgetJob := h.getJob hpath
      rw [haccept] at hgetJob
      by_contra hcmd
      rw [if_neg hcmd] at hgetJob
      cases hpc hgetJob
  · intro h
    constructor
    · intro hpath
      rw [haccept, if_pos (h.mpr hpath)]
    · intro hpath
      rw [haccept, if_neg (fun hcmd => hpath (h.mp hcmd))]
      exact ⟨rfl, fun _ _ _ _ hl hnext => hl.addWork_subset hnext⟩

/-- The test finds the command in the path or in the string that follows it in the buffer. -/
theorem isGetJob_iff {r : Request} {req : HttpRequest} {n : Nat} {rest : Bytes}
    (hread : ReadsRequest r req n rest) :
    r.isGetJob = true ↔ HasCmd req.path ∨ HasCmd (cstr (r.buffer.drop req.start.length)) := by
  rw [← req.hasCmd_start_append_iff, ← hread.split]
  exact decide_eq_true_iff

/-- A test for the command in the path or elsewhere says what the path is exactly if the path is
the command, or the command is in neither. -/
theorem saysPath_iff {path : Bytes} {elsewhere : Prop} :
    (HasCmd path ∨ elsewhere ↔ path = getJobCmd) ↔
      path = getJobCmd ∨ ¬ HasCmd path ∧ ¬ elsewhere := by
  by_cases hpath : path = getJobCmd
  · have hself : HasCmd path := by
      rw [hpath]
      exact List.infix_refl getJobCmd
    exact iff_of_true (iff_of_true (.inl hself) hpath) (.inl hpath)
  · rw [iff_false_right hpath, not_or]
    exact (or_iff_right hpath).symm

/-- A listener handles a request by its path if and only if the path is `/GetJob`, or `/GetJob`
occurs neither in the path nor in the string that follows it in the buffer. -/
theorem handled_by_path_iff (hlive : s.crashed = false) {i : Fin numListener}
    (hidle : s.listeners i = .idle) {r : Request} {req : HttpRequest} {n : Nat} {rest : Bytes}
    (hread : ReadsRequest r req n rest) :
    s.HandledByPath maxQueueSize i r req.path ↔
      req.path = getJobCmd ∨
        ¬ HasCmd req.path ∧ ¬ HasCmd (cstr (r.buffer.drop req.start.length)) := by
  rw [handledByPath_iff_isGetJob hlive hidle, isGetJob_iff hread]
  exact saysPath_iff

/-- For a request that was read whole, what follows the path are its headers, and its body with
what the buffer held behind it. -/
theorem handledByPath_iff_parts (hlive : s.crashed = false) {i : Fin numListener}
    (hidle : s.listeners i = .idle) {r : Request} {req : HttpRequest} {rest : Bytes}
    (hbuffer : r.buffer = req.text ++ rest) :
    s.HandledByPath maxQueueSize i r req.path ↔
      req.path = getJobCmd ∨ ¬ HasCmd req.path ∧
        ¬ ((∃ h ∈ req.headers, HasCmd h) ∨ HasCmd (cstr (req.body ++ rest))) := by
  have hread : ReadsRequest r req req.text.length rest := by
    refine ⟨by rw [List.take_length, hbuffer], ?_⟩
    simp [HttpRequest.text]
  rw [handledByPath_iff_isGetJob hlive hidle, isGetJob_iff hread, hbuffer,
    req.hasCmd_behind_iff]
  exact saysPath_iff

/-! ## A request with a header -/

-- the numerals of `Fin 10`
local instance : NeZero 10 := ⟨by decide⟩

/-- A request for `/1/a` with one header. -/
def requestWithHeader (header : Bytes) (hbytes : ∀ b ∈ header, b ≠ 0 ∧ b ≠ 13 ∧ b ≠ 10) :
    HttpRequest where
  method := ascii "GET"
  path := ascii "/1/a"
  minor := 0
  headers := [header]
  body := []
  method_letters := by decide +kernel
  path_bytes := by decide +kernel
  header_bytes h hh b hb := by
    rw [List.mem_singleton] at hh
    exact hbytes b (hh ▸ hb)

def plainRequest : HttpRequest := requestWithHeader (ascii "Delay: 1") (by decide +kernel)

/-- Its header names a page of that name on the server. -/
def refererRequest : HttpRequest := requestWithHeader (ascii "Referer: /GetJob") (by decide +kernel)

/-- The request as read into a buffer of zeros. -/
def asRead (req : HttpRequest) : Request := ⟨req.text ++ [0], 4, req.text.length⟩

theorem asRead_reads (req : HttpRequest) : ReadsRequest (asRead req) req req.text.length [0] := by
  refine ⟨by rw [List.take_length]; rfl, ?_⟩
  simp [HttpRequest.text]

/-- The theorem at a request with a harmless header. -/
theorem handled_by_path_iff_plain_request :
    (init emptyCell : Server 1 1).HandledByPath 100 0 (asRead plainRequest) plainRequest.path :=
  (handled_by_path_iff rfl rfl (asRead_reads plainRequest)).mpr (.inr (by decide))

/-- The header makes the listener take the request for `/1/a` for the GetJob command. -/
theorem header_taken_for_command :
    refererRequest.path ≠ getJobCmd ∧
      next 100 (init emptyCell : Server 1 1) (.accept 0 (asRead refererRequest)) =
        some ((init emptyCell).setListener 0 .testEmpty) ∧
      ¬ (init emptyCell : Server 1 1).HandledByPath 100 0 (asRead refererRequest)
        refererRequest.path := by
  have hcmd : (asRead refererRequest).isGetJob = true := by decide
  have hpath : refererRequest.path ≠ getJobCmd := by decide
  refine ⟨hpath, ?_, ?_⟩
  · rw [next_accept rfl rfl, if_pos hcmd]
  · intro h
    exact hpath (((handledByPath_iff_isGetJob rfl rfl _ _).mp h).mp hcmd)

end Server

end Cs537.P6
