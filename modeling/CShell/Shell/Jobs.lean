/-
  C-Shell formalization — the job table (`background.c`).

  The table is the list of the slots below `job_count`.  Its functions are the
  body of `sigchld_handler` for one report of `waitpid`, the two registration
  functions, `mark_job_running` and `mark_job_stopped`,
  `remove_job_by_number`, and `drain_background_notifications`.  The last is
  the only one the handler may interrupt, and is given step by step.  Its copy
  of a slot, an assignment of a `struct background_job`, is one of these steps:
  that a report arrives in the middle of the assignment, when some fields of
  the slot are copied and others are not, is not modelled.

  `job_number` and `next_job_number` are of type `int`.  The increment of
  `next_job_number` is taken modulo 2 ^ 32, as the machine does it; in C an
  `int` that overflows has no defined value.  Since numbers come back after
  that, each job also carries the place of its registration among all
  registrations (`serial`), which the code does not keep.  A completion line
  names no job; the model keeps the serial of the job with the line, so that
  one can ask which job was announced.

  `TableState` is the table with the place the drain is at, and
  `TableState.step` the calls in any order, with reports at any time.
-/
import CShell.Lib.Ints
import CShell.Lib.Slots
import CShell.Shell.Token
import Mathlib.Data.Int.Notation

namespace CShell

open Lib

/-- `MAX_JOBS`. -/
def maxJobs : ℕ := 100

/-- `MAX_PROCS`. -/
def maxProcs : ℕ := 100

/-- `PROC_RUNNING` and `PROC_STOPPED`. -/
inductive ProcState where
  | running | stopped
  deriving DecidableEq, Repr

/-- `struct proc_info`. -/
structure ProcInfo where
  pid : ℕ
  name : Str
  state : ProcState
  exited : Bool
  deriving DecidableEq, Repr

/-- `struct background_job`; `proc_count` is the length of `procs`. -/
structure Job where
  /-- how many jobs were registered before it; not kept by the code -/
  serial : ℕ
  jobNumber : ℤ
  pgid : ℕ
  procs : List ProcInfo
  remaining : ℤ
  active : Bool
  cmdline : Str
  deriving DecidableEq, Repr

/-- `procs[0].pid`. -/
def Job.leader (j : Job) : Option ℕ := j.procs.head?.map ProcInfo.pid

/-- `struct notification`. -/
structure Notification where
  pid : ℕ
  exitedNormally : Bool
  deriving DecidableEq, Repr

/-- The lines written to `stderr`. -/
inductive Message where
  | tableFull
  | started (job : ℤ) (pgid : ℕ)
  | stopped (job : ℤ) (cmdline : Str)
  | completed (serial : ℕ) (name : Str) (pid : ℕ) (normally : Bool)
  deriving DecidableEq, Repr

/-- `%d`. -/
def decimal (n : ℤ) : Str := str (toString n)

/-- The line as it is printed. -/
def Message.text : Message → Str
  | tableFull => str "cshell: job table full\n"
  | started job pgid => str "[" ++ decimal job ++ str "] " ++ decimal pgid ++ str "\n"
  | stopped job cmdline => str "\n[" ++ decimal job ++ str "] + Stopped " ++ cmdline ++ str "\n"
  | completed _ name pid normally =>
    name ++ str " with pid " ++ decimal pid ++ str " " ++
      (if normally then str "exited normally" else str "exited abnormally") ++ str "\n"

/-- The static variables of `background.c`: the slots in use, the next
    number, what the notification pipe holds, and the lines written so far. -/
structure JobTable where
  jobs : List Job
  /-- the registrations that have found room; not kept by the code -/
  registered : ℕ
  nextJobNumber : ℤ
  pipe : List Notification
  printed : List Message
  deriving DecidableEq, Repr

/-- The table at the start of the shell. -/
def JobTable.empty : JobTable := ⟨[], 0, 1, [], []⟩

/-! ## The signal handler -/

/-- A report of `waitpid`. -/
inductive Status where
  | exited | signaled | stopped | continued
  deriving DecidableEq, Repr

/-- `WIFEXITED(status) || WIFSIGNALED(status)`. -/
def Status.terminated : Status → Bool
  | exited | signaled => true
  | stopped | continued => false

/-- What a report changes in the entry of its process. -/
def ProcInfo.report (st : Status) (p : ProcInfo) : ProcInfo :=
  match st with
  | .stopped => { p with state := .stopped }
  | .continued => { p with state := .running }
  | .exited | .signaled => { p with exited := true }

/-- The test of the handler's inner loop. -/
def ProcInfo.matchReport (pid : ℕ) (st : Status) (p : ProcInfo) : Option (ProcInfo × Unit) :=
  if p.exited ∨ p.pid ≠ pid then none else some (p.report st, ())

/-- The body of the handler's outer loop: the changed job and the notification
    written, if the job has the process. -/
def Job.matchReport (pid : ℕ) (st : Status) (j : Job) : Option (Job × Option Notification) :=
  if j.active then
    (updateFirst (ProcInfo.matchReport pid st) j.procs).map fun r =>
      if st.terminated then
        let j' := { j with procs := r.1, remaining := j.remaining - 1 }
        (j', if j'.remaining = 0 then j'.leader.map (⟨·, st = .exited⟩) else none)
      else ({ j with procs := r.1 }, none)
  else none

/-- `sigchld_handler` for one report. -/
def JobTable.deliver (pid : ℕ) (st : Status) (t : JobTable) : JobTable :=
  match updateFirst (Job.matchReport pid st) t.jobs with
  | some (jobs, n) => { t with jobs := jobs, pipe := t.pipe ++ n.toList }
  | none => t

/-! ## Registration -/

/-- What the registration functions write to the new slot. -/
def Job.new (serial : ℕ) (jobNumber : ℤ) (state : ProcState) (pgid : ℕ)
    (procs : List (ℕ × Str)) (cmdline : Str) : Job :=
  let procs := procs.take maxProcs
  { serial := serial
    jobNumber := jobNumber
    pgid := pgid
    procs := procs.map fun p => ⟨p.1, p.2.take 63, state, false⟩
    remaining := procs.length
    active := true
    cmdline := cmdline.take 255 }

/-- The common body of the two registration functions. -/
def JobTable.registerJob (state : ProcState) (message : Job → Message) (pgid : ℕ)
    (procs : List (ℕ × Str)) (cmdline : Str) (t : JobTable) : JobTable :=
  if maxJobs ≤ t.jobs.length then { t with printed := t.printed ++ [.tableFull] }
  else
    let job := Job.new t.registered t.nextJobNumber state pgid procs cmdline
    { t with
      jobs := t.jobs ++ [job]
      registered := t.registered + 1
      nextJobNumber := toInt32 (t.nextJobNumber + 1)
      printed := t.printed ++ [message job] }

/-- `register_background_job`. -/
def JobTable.registerBackgroundJob (pgid : ℕ) (procs : List (ℕ × Str)) (cmdline : Str) :
    JobTable → JobTable :=
  registerJob .running (fun j => .started j.jobNumber j.pgid) pgid procs cmdline

/-- `register_stopped_job`. -/
def JobTable.registerStoppedJob (pgid : ℕ) (procs : List (ℕ × Str)) (cmdline : Str) :
    JobTable → JobTable :=
  registerJob .stopped (fun j => .stopped j.jobNumber j.cmdline) pgid procs cmdline

/-! ## The functions on one job -/

/-- The slot test of the functions that are given a job number. -/
def Job.hasNumber (n : ℤ) (j : Job) : Bool := j.active && j.jobNumber = n

/-- What the marking functions do to one process. -/
def ProcInfo.mark (state : ProcState) (p : ProcInfo) : ProcInfo :=
  if p.exited then p else { p with state := state }

/-- The common loop of `mark_job_running` and `mark_job_stopped`. -/
def Job.mark (state : ProcState) (n : ℤ) (j : Job) : Option (Job × Unit) :=
  if j.hasNumber n then some ({ j with procs := j.procs.map (ProcInfo.mark state) }, ()) else none

/-- The common body of the two marking functions. -/
def JobTable.markJob (state : ProcState) (n : ℤ) (t : JobTable) : JobTable :=
  match updateFirst (Job.mark state n) t.jobs with
  | some (jobs, _) => { t with jobs := jobs }
  | none => t

/-- `mark_job_running`. -/
def JobTable.markJobRunning : ℤ → JobTable → JobTable := markJob .running

/-- `mark_job_stopped`. -/
def JobTable.markJobStopped : ℤ → JobTable → JobTable := markJob .stopped

/-- `remove_job_by_number`. -/
def JobTable.removeJobByNumber (n : ℤ) (t : JobTable) : JobTable :=
  match t.jobs.findIdx? (Job.hasNumber n) with
  | some i => { t with jobs := swapRemove i t.jobs }
  | none => t

/-! ## Looking at the table -/

/-- `MAX_ACTIVITY_PROCS`. -/
def maxActivityProcs : ℕ := 100

/-- `struct activity_proc`. -/
structure ActivityProc where
  pid : ℕ
  name : Str
  stopped : Bool
  deriving DecidableEq, Repr

/-- `struct activity_job`. -/
structure ActivityJob where
  jobNumber : ℤ
  pgid : ℕ
  procs : List ActivityProc
  cmdline : Str
  deriving DecidableEq, Repr

/-- The copy of a job, without the processes that have exited. -/
def Job.activity (j : Job) : ActivityJob :=
  { jobNumber := j.jobNumber
    pgid := j.pgid
    procs := ((j.procs.filter (!·.exited)).take maxActivityProcs).map fun p =>
      ⟨p.pid, p.name, p.state = .stopped⟩
    cmdline := j.cmdline }

/-- `get_activities`. -/
def JobTable.getActivities (maxJobs : ℕ) (t : JobTable) : List ActivityJob :=
  ((t.jobs.filter Job.active).take maxJobs).map Job.activity

/-! ## Draining the notifications -/

/-- Where `drain_background_notifications` is. -/
inductive Drain where
  /-- not called -/
  | idle
  /-- at the `read` of the outer loop -/
  | reading
  /-- at the test of slot `i` -/
  | scanning (n : Notification) (i : ℕ)
  /-- the completion line of slot `i` is printed -/
  | matched (n : Notification) (i : ℕ)
  /-- the last slot is copied, `job_count` not yet lowered -/
  | copied
  deriving DecidableEq, Repr

/-- One step of `drain_background_notifications`; `idle` calls it. -/
def JobTable.drainStep (t : JobTable) : Drain → JobTable × Drain
  | .idle => (t, .reading)
  | .reading =>
    match t.pipe with
    | [] => (t, .idle)
    | n :: pipe => ({ t with pipe := pipe }, .scanning n 0)
  | .scanning n i =>
    match t.jobs[i]? with
    | none => (t, .reading)
    | some j =>
      if j.active ∧ j.leader = some n.pid then
        let name := (j.procs.head?.map ProcInfo.name).getD []
        ({ t with printed := t.printed ++ [.completed j.serial name n.pid n.exitedNormally] },
          .matched n i)
      else (t, .scanning n (i + 1))
  -- `jobs[i] = jobs[job_count - 1]` is one write here
  | .matched _ i => ({ t with jobs := copyLast i t.jobs }, .copied)
  | .copied => ({ t with jobs := t.jobs.dropLast }, .reading)

/-- The jobs in the table: while the last slot is copied but still counted,
    the slots before it. -/
def JobTable.tracked (t : JobTable) : Drain → List Job
  | .copied => t.jobs.dropLast
  | .idle | .reading | .scanning _ _ | .matched _ _ => t.jobs

theorem JobTable.tracked_of_ne {t : JobTable} {d : Drain} (h : d ≠ .copied) :
    t.tracked d = t.jobs := by
  cases d with
  | copied => exact absurd rfl h
  | idle | reading | scanning | matched => rfl

/-! ## Calls in any order -/

/-- The table, and where the drain is. -/
structure TableState where
  table : JobTable
  drain : Drain
  deriving DecidableEq, Repr

/-- The start of the shell. -/
def TableState.init : TableState := ⟨.empty, .idle⟩

/-- The jobs in the table. -/
def TableState.tracked (s : TableState) : List Job := s.table.tracked s.drain

/-- A call of a function of the table, a report to the handler, or a step of the
    drain. -/
inductive TableAct where
  | registerBackground (pgid : ℕ) (procs : List (ℕ × Str)) (cmdline : Str)
  | registerStopped (pgid : ℕ) (procs : List (ℕ × Str)) (cmdline : Str)
  | deliver (pid : ℕ) (st : Status)
  | markRunning (job : ℤ)
  | markStopped (job : ℤ)
  | remove (job : ℤ)
  | drain
  deriving DecidableEq, Repr

/-- A call from the shell's own code, which is not inside the drain. -/
def TableState.call (s : TableState) (f : JobTable → JobTable) : Option TableState :=
  if s.drain = .idle then some { s with table := f s.table } else none

/-- One call, report or step; a registration has at least one process. -/
def TableState.step (s : TableState) : TableAct → Option TableState
  | .registerBackground pgid procs cmdline =>
    if procs ≠ [] then s.call (.registerBackgroundJob pgid procs cmdline) else none
  | .registerStopped pgid procs cmdline =>
    if procs ≠ [] then s.call (.registerStoppedJob pgid procs cmdline) else none
  | .deliver pid st => some { s with table := s.table.deliver pid st }
  | .markRunning n => s.call (.markJobRunning n)
  | .markStopped n => s.call (.markJobStopped n)
  | .remove n => s.call (.removeJobByNumber n)
  | .drain =>
    let r := s.table.drainStep s.drain
    some ⟨r.1, r.2⟩

end CShell
