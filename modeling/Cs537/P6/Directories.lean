import Mathlib.Data.Nat.Digits.Defs
import Cs537.P6.QueueHistory

/-!
# Directory numbers

A request for a file in a directory with a larger number is meant to be served first.
`add_work` takes the priority from one byte of the request, the first digit of the directory.
The jobs therefore leave the queue in the order of the directory numbers exactly as long as a
larger number always has a larger first digit.
-/

namespace Cs537.P6

open Cs537.Lib Queue

/-! ## Requests -/

/-- The name of a directory: one decimal digit or more. -/
structure Directory where
  first : Fin 10
  more : List (Fin 10)
  deriving DecidableEq

namespace Directory

def digits (d : Directory) : List (Fin 10) := d.first :: d.more

/-- The number that the name stands for. -/
def number (d : Directory) : Nat := Nat.ofDigits 10 (d.digits.reverse.map Fin.val)

/-- The character of a digit. -/
def digitByte (c : Fin 10) : UInt8 := UInt8.ofNat (48 + c.val)

def name (d : Directory) : Bytes := d.digits.map digitByte

end Directory

/-- A request for a file in a directory, `rest` what follows `HTTP/1.` in the buffer. -/
def requestText (d : Directory) (file rest : Bytes) : Bytes :=
  ascii "GET /" ++ (d.name ++ 47 :: (file ++ ascii " HTTP/1." ++ rest))

def isDigit (b : UInt8) : Bool := 48 ≤ b && b ≤ 57

/-- The number of the directory that a request is for: the digits after `GET /`. -/
def directoryNumber (text : Bytes) : Nat :=
  Nat.ofDigits 10 (((text.drop 5).takeWhile isDigit).reverse.map fun b => b.toNat - 48)

/-- The directory number of the job at an address. -/
def Queue.directoryOf (q : Queue) (a : Nat) : Nat :=
  ((q.mem a).map fun j => directoryNumber j.buffer).getD 0

theorem isDigit_digitByte (c : Fin 10) : isDigit (Directory.digitByte c) = true := by
  revert c
  decide

theorem digitByte_ne_zero (c : Fin 10) : Directory.digitByte c ≠ 0 := by
  revert c
  decide

theorem toNat_digitByte (c : Fin 10) : (Directory.digitByte c).toNat - 48 = c.val := by
  revert c
  decide

theorem charInt_digitByte (c : Fin 10) : charInt (Directory.digitByte c) - 48 = (c.val : Int) := by
  revert c
  decide

/-- What `strcpy` copies of a request begins with the directory. -/
theorem cstr_requestText (d : Directory) (file rest : Bytes) :
    ∃ behind, cstr (requestText d file rest) = ascii "GET /" ++ (d.name ++ 47 :: behind) := by
  have hfront : (0 : UInt8) ∉ ascii "GET /" := by decide
  have hname : (0 : UInt8) ∉ d.name := by
    intro hzero
    obtain ⟨c, -, hc⟩ := List.mem_map.mp hzero
    exact digitByte_ne_zero c hc
  refine ⟨cstr (file ++ ascii " HTTP/1." ++ rest), ?_⟩
  unfold requestText
  rw [cstr_append_of_zero_notMem hfront, cstr_append_of_zero_notMem hname, cstr_eq (47 :: _)]
  rfl

/-- The number in the copy of a request. -/
theorem directoryNumber_requestText (d : Directory) (file rest : Bytes) :
    directoryNumber (cstr (requestText d file rest)) = d.number := by
  obtain ⟨behind, hbehind⟩ := cstr_requestText d file rest
  have hname : ∀ b ∈ d.name, isDigit b = true := by
    intro b hb
    obtain ⟨c, -, rfl⟩ := List.mem_map.mp hb
    exact isDigit_digitByte c
  have hdrop : (ascii "GET /" ++ (d.name ++ 47 :: behind)).drop 5 = d.name ++ 47 :: behind := rfl
  have htake : (d.name ++ 47 :: behind).takeWhile isDigit = d.name := by
    rw [List.takeWhile_append_of_pos hname, List.takeWhile_cons_of_neg (by decide),
      List.append_nil]
  unfold directoryNumber Directory.number
  rw [hbehind, hdrop, htake, Directory.name, ← List.map_reverse, List.map_map]
  congr 2
  funext c
  exact toNat_digitByte c

/-- The priority that `add_work` gives a request is its first digit. -/
theorem priority_requestText (d : Directory) (file rest : Bytes) (clientFd bytesRead : Int) :
    (newJobOf (requestText d file rest) clientFd bytesRead).priority = (d.first.val : Int) :=
  charInt_digitByte d.first

/-! ## The order of the jobs -/

/-- A job that `add_work` makes of a request for a file in one of the directories. -/
def FromDirectory (ds : Set Directory) (job : Job) : Prop :=
  ∃ d ∈ ds, ∃ file rest clientFd bytesRead,
    job = newJobOf (requestText d file rest) clientFd bytesRead

/-- In every history of requests for files in these directories, each further removal takes a
job of the largest directory number. -/
def ServesLargest (ds : Set Directory) : Prop :=
  ∀ (maxSize : Int) (left : Job) (ops : List QueueOp) (q : Queue) (outs : List QueueOut),
    (∀ job, .addWork job ∈ ops → FromDirectory ds job) →
    runQueue maxSize (createQueue left) ops = some (q, outs) →
    ∀ op, op = .getWork ∨ op = .getWorkNonblocking →
      ∀ q' a, queueStep maxSize q op = some (q', .dequeued a) →
        ∀ b ∈ pending outs, q.directoryOf b ≤ q.directoryOf a

/-- What is read from a cell depends on its data only. -/
theorem priorityOf_of_data {q : Queue} {a : Nat} {job : Job}
    (h : (q.mem a).map data = some (data job)) : q.priorityOf a = job.priority := by
  obtain ⟨j, hj, hdata⟩ := Option.map_eq_some_iff.mp h
  have hprio : j.priority = job.priority := (congrArg Job.priority hdata : _)
  rw [Queue.priorityOf, hj, Option.map_some, Option.getD_some, hprio]

theorem directoryOf_of_data {q : Queue} {a : Nat} {job : Job}
    (h : (q.mem a).map data = some (data job)) :
    q.directoryOf a = directoryNumber job.buffer := by
  obtain ⟨j, hj, hdata⟩ := Option.map_eq_some_iff.mp h
  have hbuffer : j.buffer = job.buffer := (congrArg Job.buffer hdata : _)
  rw [Queue.directoryOf, hj, Option.map_some, Option.getD_some, hbuffer]

/-- The first digit and the number of a job made of a request. -/
theorem orders_of_data {q : Queue} {a : Nat} {d : Directory} {file rest : Bytes}
    {clientFd bytesRead : Int}
    (h : (q.mem a).map data = some (data (newJobOf (requestText d file rest) clientFd bytesRead))) :
    q.priorityOf a = (d.first.val : Int) ∧ q.directoryOf a = d.number :=
  ⟨(priorityOf_of_data h).trans (priority_requestText d file rest clientFd bytesRead),
    (directoryOf_of_data h).trans (directoryNumber_requestText d file rest)⟩

/-- A removal after a history takes the earliest pending job of maximal priority. -/
theorem History.argmax_of_removal {maxSize : Int} {q q' : Queue} {ops : List QueueOp}
    {outs : List QueueOut} {l : List Nat} {a : Nat} {op : QueueOp} (h : History q ops outs l)
    (hop : op = .getWork ∨ op = .getWorkNonblocking)
    (hstep : queueStep maxSize q op = some (q', .dequeued a)) :
    (pending outs).argmax q.priorityOf = some a := by
  cases l with
  | nil =>
    rcases hop with rfl | rfl
    · simp [queueStep, h.holds.removal_undefined.2] at hstep
    · simp [queueStep, h.holds.removal_undefined.1] at hstep
  | cons b l =>
    obtain ⟨hmax, u, hu, -⟩ := h.dequeue maxSize op hop
    obtain ⟨-, rfl⟩ : u = q' ∧ b = a := by simpa [hstep, eq_comm] using hu
    exact hmax

/-- If a larger number has a larger first digit, every removal takes the largest number. -/
theorem servesLargest_of_first_lt {ds : Set Directory}
    (hdigits : ∀ d ∈ ds, ∀ e ∈ ds, d.number < e.number → d.first < e.first) :
    ServesLargest ds := by
  intro maxSize left ops q outs hops hrun op hop q' a hstep b hb
  obtain ⟨l, h⟩ := (History.start left).of_run ops hrun
  rw [List.nil_append, List.nil_append] at h
  have hmax := h.argmax_of_removal hop hstep
  -- both jobs were made of requests
  have hjob {x : Nat} (hx : x ∈ pending outs) :
      ∃ d ∈ ds, q.priorityOf x = (d.first.val : Int) ∧ q.directoryOf x = d.number := by
    obtain ⟨job, hadd, hdata⟩ := h.pending_job hrun hx
    obtain ⟨d, hd, file, rest, clientFd, bytesRead, rfl⟩ := hops job hadd
    exact ⟨d, hd, orders_of_data hdata⟩
  obtain ⟨d, hd, hprio, hnumber⟩ := hjob (List.argmax_mem hmax)
  obtain ⟨e, he, hprio', hnumber'⟩ := hjob hb
  have hle := List.le_of_mem_argmax hb hmax
  rw [hprio, hprio'] at hle
  rw [hnumber, hnumber']
  by_contra hlt
  have hfirst := hdigits d hd e he (not_le.mp hlt)
  have hval : d.first.val < e.first.val := hfirst
  omega

/-- Two requests on a fresh queue, the one of the smaller number first. -/
theorem two_requests (d e : Directory) :
    ∃ q outs a b, runQueue 2 (createQueue ⟨[], 0, none, 0, 0⟩)
        [.addWork (newJobOf (requestText d [] []) 0 0),
          .addWork (newJobOf (requestText e [] []) 0 0)] = some (q, outs) ∧
      pending outs = [a, b] ∧ (∃ l, q.Holds l ∧ l ≠ [] ∧ History q
        [.addWork (newJobOf (requestText d [] []) 0 0),
          .addWork (newJobOf (requestText e [] []) 0 0)] outs l) ∧
      q.priorityOf a = (d.first.val : Int) ∧ q.directoryOf a = d.number ∧
      q.priorityOf b = (e.first.val : Int) ∧ q.directoryOf b = e.number := by
  obtain ⟨q₁, l₁, hstep₁, hhist₁, hlen₁, -⟩ :=
    (History.start ⟨[], 0, none, 0, 0⟩).addWork_accepted (newJobOf (requestText d [] []) 0 0)
      (show (0 : Int) ≠ 2 by decide)
  have hsize : q₁.queueSize ≠ 2 := by
    rw [hhist₁.size, hlen₁]
    decide
  obtain ⟨q₂, l₂, hstep₂, hhist₂, hlen₂, -⟩ :=
    hhist₁.addWork_accepted (newJobOf (requestText e [] []) 0 0) hsize
  have hne : l₂ ≠ [] := by
    rintro rfl
    cases hlen₂
  simp only [List.nil_append, List.cons_append] at hhist₂
  obtain ⟨hdata, hrest⟩ := List.forall₂_cons.mp hhist₂.jobs
  obtain ⟨hdata', -⟩ := List.forall₂_cons.mp hrest
  obtain ⟨hprio, hnumber⟩ := orders_of_data (hdata _ _ rfl rfl)
  obtain ⟨hprio', hnumber'⟩ := orders_of_data (hdata' _ _ rfl rfl)
  refine ⟨q₂, _, _, _, ?_, rfl, ⟨l₂, hhist₂.holds, hne, hhist₂⟩, hprio, hnumber, hprio', hnumber'⟩
  rw [runQueue, hstep₁]
  simp only [Option.bind_eq_bind, Option.bind_some, runQueue, hstep₂]

/-- The second of two requests leaves first only if its first digit is larger. -/
theorem first_lt_of_servesLargest {ds : Set Directory} (h : ServesLargest ds) {d e : Directory}
    (hd : d ∈ ds) (he : e ∈ ds) (hlt : d.number < e.number) : d.first < e.first := by
  obtain ⟨q, outs, a, b, hrun, hpending, ⟨l, hholds, hne, hhist⟩, hprio, hnumber, hprio',
    hnumber'⟩ := two_requests d e
  obtain ⟨x, l, rfl⟩ := List.exists_cons_of_ne_nil hne
  obtain ⟨hmax, q', hstep, -⟩ := hhist.dequeue 2 .getWork (.inl rfl)
  have hall := h 2 _ _ q outs ?_ hrun .getWork (.inl rfl) q' x hstep
  · rw [hpending] at hmax hall
    -- the larger number must leave first
    have hx : x = b := by
      rcases List.mem_pair.mp (List.argmax_mem hmax) with rfl | rfl
      · have hle := hall b (by simp)
        rw [hnumber, hnumber'] at hle
        exact absurd hlt (not_lt.mpr hle)
      · rfl
    subst hx
    have hprios : q.priorityOf a < q.priorityOf x := by
      by_contra hge
      have hfirst := (List.argmax_eq_some_iff.mp hmax).2.2 a (by simp) (not_lt.mp hge)
      rw [List.idxOf_cons_self, Nat.le_zero, List.idxOf_eq_zero_iff_head_eq (by simp)] at hfirst
      rw [show a = x from hfirst, hnumber'] at hnumber
      exact absurd hnumber (Nat.ne_of_gt hlt)
    rw [hprio, hprio'] at hprios
    exact_mod_cast hprios
  · intro job hjob
    simp only [List.mem_cons, QueueOp.addWork.injEq, List.not_mem_nil, or_false] at hjob
    rcases hjob with rfl | rfl
    · exact ⟨d, hd, [], [], 0, 0, rfl⟩
    · exact ⟨e, he, [], [], 0, 0, rfl⟩

/-- For any set of directories, the jobs leave the queue in the order of the directory numbers in
every history of requests if and only if a larger number always has a larger first digit. -/
theorem serves_largest_iff (ds : Set Directory) :
    ServesLargest ds ↔ ∀ d ∈ ds, ∀ e ∈ ds, d.number < e.number → d.first < e.first :=
  ⟨fun h _ hd _ he hlt => first_lt_of_servesLargest h hd he hlt, servesLargest_of_first_lt⟩

/-- The directories `3` and `10` of the example in `README.md:219`. -/
def three : Directory := ⟨3, []⟩

def ten : Directory := ⟨1, [0]⟩

/-- A request for a file in `3` and then one for a file in `10`: the worker takes the first one. -/
theorem three_served_before_ten :
    ∃ q outs a b q', runQueue 2 (createQueue ⟨[], 0, none, 0, 0⟩)
        [.addWork (newJobOf (requestText three [] []) 0 0),
          .addWork (newJobOf (requestText ten [] []) 0 0)] = some (q, outs) ∧
      pending outs = [a, b] ∧ q.directoryOf a = 3 ∧ q.directoryOf b = 10 ∧
      queueStep 2 q .getWork = some (q', .dequeued a) ∧ ¬ ServesLargest Set.univ := by
  obtain ⟨q, outs, a, b, hrun, hpending, ⟨l, -, hne, hhist⟩, hprio, hnumber, hprio', hnumber'⟩ :=
    two_requests three ten
  obtain ⟨x, l, rfl⟩ := List.exists_cons_of_ne_nil hne
  obtain ⟨hmax, q', hstep, -⟩ := hhist.dequeue 2 .getWork (.inl rfl)
  have hx : x = a := by
    rw [hpending, List.argmax_eq_some_iff] at hmax
    rcases List.mem_pair.mp hmax.1 with rfl | rfl
    · rfl
    · have hle := hmax.2.1 a (by simp)
      rw [hprio, hprio'] at hle
      exact absurd hle (by decide)
  subst hx
  refine ⟨q, outs, x, b, q', hrun, hpending, hnumber, hnumber', hstep, ?_⟩
  intro h
  have hfirst : three.first < ten.first :=
    first_lt_of_servesLargest h (Set.mem_univ three) (Set.mem_univ ten) (by decide)
  exact absurd hfirst (by decide)

end Cs537.P6
