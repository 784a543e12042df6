/-
  C-Shell formalization — `snoop` and its tracee.

  A traced process stops or ends, which is reported to one caller of `waitpid`
  and raises SIGCHLD in the shell.  There are two callers: the tracer
  (`snoop_command`, `snoop_attach` and the loop of `run_syscall_trace`), which
  waits for this process, and `sigchld_handler`, which waits for any.  The
  model interleaves the tracer's calls, the tracee and the handler.

  * `Snoop.Inv`: the tracer waits iff the tracee has something to report; it is
    kept by every step if the handler does not run and the tracee is not killed
    in a stop;
  * `owned_iff`: the tracer gets every status in every run iff SIGCHLD is
    blocked and the tracee is not killed in a stop.
-/
import CShell.Shell.Token
import CShell.Lib.Steps
import Mathlib.Data.Int.Notation

namespace CShell

open Lib

/-! ## run_syscall_trace -/

/-- A status of a traced process. -/
inductive TraceStatus where
  | exited
  | signaled
  | stopped (sig : ℕ)
  deriving DecidableEq

/-- `SIGTRAP` -/
def sigtrap : ℕ := 5
/-- `SIGSTOP` -/
def sigstop : ℕ := 19

/-- The locals of `run_syscall_trace`.  Times are in nanoseconds; `records` are
    the calls of `record_syscall` since `reset_stats`. -/
structure Trace where
  expectingEntry : Bool
  currentSyscallNum : ℤ
  entryTime : ℤ
  resumeSig : ℕ
  records : List (ℤ × ℤ)
  deriving DecidableEq

/-- The variables of `run_syscall_trace` at its start. -/
def Trace.start : Trace := ⟨true, -1, 0, 0, []⟩

/-- `record_syscall` with the number of the last entry. -/
def Trace.recordSyscall (now : ℤ) (t : Trace) : Trace :=
  { t with records := t.records ++ [(t.currentSyscallNum, now - t.entryTime)] }

/-- The body of the loop after its `waitpid`: the locals, and whether the loop
    goes on.  `regs` is the syscall number, if `PTRACE_GETREGS` succeeds. -/
def Trace.got (st : TraceStatus) (now : ℤ) (regs : Option ℤ) (t : Trace) : Trace × Bool :=
  match st with
  | .exited | .signaled => (if t.expectingEntry then t else t.recordSyscall now, false)
  | .stopped sig =>
    if sig ≠ sigtrap then ({ t with resumeSig := sig }, true)
    else if t.expectingEntry then
      match regs with
      | some num =>
        ({ t with currentSyscallNum := num, entryTime := now, expectingEntry := false }, true)
      | none => ({ t with expectingEntry := false }, true)
    else ({ t.recordSyscall now with expectingEntry := true }, true)

/-! ## The tracer -/

/-- How a call of `snoop` ends. -/
inductive SnoopEnd where
  | internalError
  | commandNotFound
  | noSuchProcess
  | couldNotAttach
  /-- `print_summary` after these records -/
  | summary (records : List (ℤ × ℤ))
  deriving DecidableEq

/-- What is printed, the summary apart. -/
def SnoopEnd.message : SnoopEnd → Option Str
  | .internalError => some (str "snoop: internal error\n")
  | .commandNotFound => some (str "snoop: command not found\n")
  | .noSuchProcess => some (str "snoop: no such process\n")
  | .couldNotAttach => some (str "snoop: could not attach to process\n")
  | .summary _ => none

/-- The two functions that start a trace. -/
inductive SnoopCall where
  | snoopCommand
  | snoopAttach
  deriving DecidableEq

/-- Where the tracer is. -/
inductive SnoopPlace where
  | called (call : SnoopCall)
  /-- at the first `waitpid` of the function -/
  | first (call : SnoopCall)
  /-- at the `read` of `snoop_command`, with the status it got -/
  | reading (st : TraceStatus)
  /-- at `PTRACE_SYSCALL` -/
  | resuming (t : Trace)
  /-- at the `waitpid` of the loop -/
  | tracing (t : Trace)
  | returned (e : SnoopEnd)
  deriving DecidableEq

/-- The tracer is at a `waitpid`. -/
def SnoopPlace.waits : SnoopPlace → Bool
  | .first _ | .tracing _ => true
  | _ => false

/-- `waitpid` returns a status. -/
def SnoopPlace.got (st : TraceStatus) (now : ℤ) (regs : Option ℤ) : SnoopPlace → Option SnoopPlace
  | .first .snoopCommand => some (.reading st)
  | .first .snoopAttach => some (.resuming .start)
  | .tracing t =>
    let (t, more) := t.got st now regs
    some (if more then .resuming t else .returned (.summary t.records))
  | _ => none

/-- `waitpid` returns -1. -/
def SnoopPlace.noChild : SnoopPlace → Option SnoopPlace
  | .first .snoopCommand => some (.returned .internalError)
  | .first .snoopAttach => some (.returned .couldNotAttach)
  | .tracing t => some (.returned (.summary t.records))
  | _ => none

/-! ## The tracee -/

/-- What the tracee's code has come to. -/
inductive TraceeCode where
  | forked
  /-- after `PTRACE_TRACEME` -/
  | traced
  /-- `execvp` has failed -/
  | failed
  /-- and the error is in the pipe -/
  | wrote
  /-- the program to trace -/
  | image
  deriving DecidableEq

/-- The state of the tracee, and whether `waitpid` has reported it. -/
inductive Tracee where
  | absent
  | running
  | stopped (sig : ℕ) (reported : Bool)
  | dead (st : TraceStatus) (reported : Bool)
  deriving DecidableEq

/-- What `waitpid` has to report. -/
def Tracee.unreported : Tracee → Option TraceStatus
  | .stopped sig false => some (.stopped sig)
  | .dead st false => some st
  | _ => none

/-- `waitpid` has reported it. -/
def Tracee.report : Tracee → Tracee
  | .stopped sig _ => .stopped sig true
  | .dead st _ => .dead st true
  | c => c

/-- The tracee is stopped. -/
def Tracee.isStopped : Tracee → Bool
  | .stopped .. => true
  | _ => false

/-- The tracee has ended. -/
def Tracee.isDead : Tracee → Bool
  | .dead .. => true
  | _ => false

/-! ## The system -/

/-- What the surroundings can do. -/
structure SnoopEnv where
  /-- SIGCHLD is blocked in the mask the shell runs with -/
  blocked : Bool
  /-- a tracee in a stop may be killed -/
  kills : Bool

/-- The tracer, the tracee and the reports between them. -/
structure Snoop where
  place : SnoopPlace
  code : TraceeCode
  tracee : Tracee
  /-- SIGCHLD is pending -/
  sigchld : Bool
  /-- every status the tracee has had -/
  statuses : List TraceStatus
  /-- those the tracer's `waitpid` has returned -/
  received : List TraceStatus
  /-- those the `waitpid` of `sigchld_handler` has returned -/
  consumed : List TraceStatus
  deriving DecidableEq

/-- Before the call. -/
def Snoop.init (call : SnoopCall) : Snoop := ⟨.called call, .image, .absent, false, [], [], []⟩

/-- What `PTRACE_ATTACH` returns. -/
inductive AttachResult where
  | attached
  | noProcess
  | denied
  deriving DecidableEq

/-- What the tracer, the tracee, the kernel and the handler of the shell do. -/
inductive SnoopAct where
  -- the tracer's calls
  | fork (ok : Bool)
  | attach (r : AttachResult)
  | waitpid (now : ℤ) (regs : Option ℤ)
  | read
  | ptrace
  -- the tracee
  | traceme
  | execvp (ok : Bool)
  | write
  | stop (sig : ℕ)
  | exit
  | die
  | kill
  -- the signal
  | raise
  | handle

/-- The tracee stops or ends: a status to report, and SIGCHLD. -/
def Snoop.event (st : TraceStatus) (c : Tracee) (s : Snoop) : Snoop :=
  { s with tracee := c, statuses := s.statuses ++ [st], sigchld := true }

/-- A `waitpid` of the tracer; it blocks (`none`) if there is nothing to report. -/
def Snoop.waitpid (now : ℤ) (regs : Option ℤ) (s : Snoop) : Option Snoop :=
  match s.tracee.unreported with
  | some st => (s.place.got st now regs).map fun p =>
    { s with place := p, tracee := s.tracee.report, received := s.received ++ [st] }
  | none =>
    if s.tracee.isDead then s.place.noChild.map fun p => { s with place := p } else none

/-- The `waitpid` loop of `sigchld_handler`, as far as the tracee goes. -/
def Snoop.sigchldHandler (s : Snoop) : Snoop :=
  { s with
    sigchld := false
    tracee := s.tracee.report
    consumed := s.consumed ++ s.tracee.unreported.toList }

/-- The `read` of `snoop_command`: an error, or the end of the pipe once no
    process has it open for writing. -/
def Snoop.readPipe (st : TraceStatus) (s : Snoop) : Option SnoopPlace :=
  if s.code = .wrote then some (.returned .commandNotFound)
  else if s.code = .image ∨ s.tracee.isDead then
    match st with
    | .stopped _ => some (.resuming .start)
    | _ => some (.returned .commandNotFound)
  else none

/-- One of these steps. -/
def Snoop.step (e : SnoopEnv) (s : Snoop) : SnoopAct → Option Snoop
  | .fork ok =>
    if s.place = .called .snoopCommand then
      if ok then some { s with place := .first .snoopCommand, tracee := .running, code := .forked }
      else some { s with place := .returned .internalError }
    else none
  | .attach r =>
    if s.place = .called .snoopAttach then
      match r with
      | .attached => some { s with place := .first .snoopAttach, tracee := .running }
      | .noProcess => some { s with place := .returned .noSuchProcess }
      | .denied => some { s with place := .returned .couldNotAttach }
    else none
  | .waitpid now regs => s.waitpid now regs
  | .read =>
    match s.place with
    | .reading st => (s.readPipe st).map fun p => { s with place := p }
    | _ => none
  | .ptrace =>
    match s.place with
    | .resuming t =>
      -- it fails if the tracee is not in a stop
      if s.tracee.isStopped then
        some { s with place := .tracing { t with resumeSig := 0 }, tracee := .running }
      else some { s with place := .returned (.summary t.records) }
    | _ => none
  | .traceme =>
    if s.tracee = .running ∧ s.code = .forked then some { s with code := .traced } else none
  | .execvp ok =>
    if s.tracee = .running ∧ s.code = .traced then
      -- a traced process that has executed a program stops
      if ok then some { s.event (.stopped sigtrap) (.stopped sigtrap false) with code := .image }
      else some { s with code := .failed }
    else none
  | .write =>
    if s.tracee = .running ∧ s.code = .failed then some { s with code := .wrote } else none
  | .stop sig =>
    if s.tracee = .running ∧ s.code ≠ .forked then
      some (s.event (.stopped sig) (.stopped sig false))
    else none
  | .exit =>
    if s.tracee = .running ∧ (s.code = .wrote ∨ s.code = .image) then
      some (s.event .exited (.dead .exited false))
    else none
  | .die =>
    if s.tracee = .running then some (s.event .signaled (.dead .signaled false)) else none
  | .kill =>
    if e.kills ∧ s.tracee.isStopped then some (s.event .signaled (.dead .signaled false)) else none
  | .raise => some { s with sigchld := true }
  | .handle => if s.sigchld ∧ !e.blocked then some s.sigchldHandler else none

/-! ## The property -/

/-- The tracer owns the tracee. -/
structure Snoop.Owned (s : Snoop) : Prop where
  consumed : s.consumed = []
  /-- every status is received or can be -/
  received : s.statuses = s.received ++ s.tracee.unreported.toList
  /-- what is not received when `snoop` returns never is -/
  returned : ∀ e, s.place = .returned e → s.tracee.unreported = none
  /-- the stop the tracer waits for has not been reported before -/
  waits : s.place.waits → ∀ sig, s.tracee ≠ .stopped sig true

/-! ## The invariant -/

/-- The tracee has something to report, or will have. -/
def Tracee.reports (c : Tracee) : Bool := c = .running || c.unreported.isSome

/-- The invariant of the runs in which the handler takes nothing. -/
structure Snoop.Inv (s : Snoop) : Prop where
  consumed : s.consumed = []
  received : s.statuses = s.received ++ s.tracee.unreported.toList
  /-- the tracer waits iff the tracee has something to report -/
  turn : s.place.waits = s.tracee.reports

theorem Snoop.Inv.owned {s : Snoop} (h : s.Inv) : s.Owned where
  consumed := h.consumed
  received := h.received
  returned e he := by
    have ht := h.turn
    rw [he] at ht
    simpa [SnoopPlace.waits, Tracee.reports] using (Bool.or_eq_false_iff.1 ht.symm).2
  waits hw sig hs := by
    have ht := h.turn
    rw [hw, hs] at ht
    cases ht

theorem Snoop.inv_init (call : SnoopCall) : (init call).Inv := ⟨rfl, rfl, rfl⟩

theorem Tracee.unreported_report (c : Tracee) : c.report.unreported = none := by
  cases c <;> rfl

theorem Tracee.reports_report {c : Tracee} {st : TraceStatus} (h : c.unreported = some st) :
    c.report.reports = false := by
  cases c with
  | absent | running => cases h
  | stopped | dead => rfl

theorem Tracee.unreported_of_not_reports {c : Tracee} (h : c.reports = false) :
    c ≠ .running ∧ c.unreported = none := by
  obtain ⟨hr, hu⟩ := Bool.or_eq_false_iff.1 h
  exact ⟨of_decide_eq_false hr, by simpa using hu⟩

theorem SnoopPlace.waits_of_got {p q : SnoopPlace} {st : TraceStatus} {now : ℤ} {regs : Option ℤ}
    (h : p.got st now regs = some q) : p.waits ∧ q.waits = false := by
  cases p with
  | first call => cases call <;> cases h <;> exact ⟨rfl, rfl⟩
  | tracing t =>
    refine ⟨rfl, ?_⟩
    rcases hg : t.got st now regs with ⟨t', more⟩
    simp only [got, hg] at h
    cases more <;> cases h <;> rfl
  | called | reading | resuming | returned => cases h

theorem SnoopPlace.waits_of_noChild {p q : SnoopPlace} (h : p.noChild = some q) : p.waits := by
  unfold noChild at h
  split at h <;> first | rfl | cases h

/-! ### The steps -/

section
variable {s s' : Snoop}

/-- A running tracee stops or ends. -/
theorem Snoop.Inv.event {st : TraceStatus} {c : Tracee} (h : s.Inv) (hr : s.tracee = .running)
    (hc : c.unreported = some st) : (s.event st c).Inv where
  consumed := h.consumed
  received := by
    show s.statuses ++ [st] = s.received ++ c.unreported.toList
    rw [h.received, hr, hc]
    simp [Tracee.unreported]
  turn := by
    show s.place.waits = c.reports
    rw [h.turn, hr, Tracee.reports, Tracee.reports, hc, Option.isSome_some, Bool.or_true]
    rfl

/-- The tracee's code gets on. -/
theorem Snoop.Inv.setCode (h : s.Inv) (code : TraceeCode) : Snoop.Inv { s with code := code } :=
  ⟨h.consumed, h.received, h.turn⟩

/-- The tracer gets on to a place where it does not wait. -/
theorem Snoop.Inv.setPlace {p : SnoopPlace} (h : s.Inv) (hs : s.place.waits = false)
    (hp : p.waits = false) : Snoop.Inv { s with place := p } :=
  ⟨h.consumed, h.received, hp.trans (hs.symm.trans h.turn)⟩

/-- The tracee starts or goes on, and the tracer waits for it. -/
theorem Snoop.Inv.runs {p : SnoopPlace} {code : TraceeCode} (h : s.Inv)
    (hs : s.place.waits = false) (hp : p.waits) :
    Snoop.Inv { s with place := p, tracee := .running, code := code } where
  consumed := h.consumed
  received := by
    have hr := h.received
    rwa [(Tracee.unreported_of_not_reports (h.turn.symm.trans hs)).2] at hr
  turn := hp

theorem Snoop.Inv.waitpid {now : ℤ} {regs : Option ℤ} (h : s.Inv)
    (hs : s.waitpid now regs = some s') : s'.Inv := by
  unfold Snoop.waitpid at hs
  split at hs
  · rename_i st hu
    obtain ⟨p, hp, rfl⟩ := Option.map_eq_some_iff.1 hs
    refine ⟨h.consumed, ?_, ?_⟩
    · show s.statuses = (s.received ++ [st]) ++ s.tracee.report.unreported.toList
      rw [h.received, hu, Tracee.unreported_report]
      simp
    · exact (SnoopPlace.waits_of_got hp).2.trans (Tracee.reports_report hu).symm
  · -- the tracer does not wait for a tracee that has ended and reported it
    rename_i hu
    split at hs
    · rename_i hd
      obtain ⟨p, hp, rfl⟩ := Option.map_eq_some_iff.1 hs
      have ht := h.turn
      rw [SnoopPlace.waits_of_noChild hp, Tracee.reports, hu] at ht
      cases hc : s.tracee <;> simp [hc, Tracee.isDead] at hd ht
    · cases hs

theorem SnoopPlace.waits_of_readPipe {st : TraceStatus} {p : SnoopPlace}
    (h : s.readPipe st = some p) : p.waits = false := by
  unfold Snoop.readPipe at h
  split at h
  · cases h; rfl
  · split at h
    · split at h <;> cases h <;> rfl
    · cases h

/-- **One step.** -/
theorem Snoop.Inv.step {e : SnoopEnv} {a : SnoopAct} (hb : e.blocked) (hk : e.kills = false)
    (h : s.Inv) (hs : s.step e a = some s') : s'.Inv := by
  cases a with
  | fork ok =>
    simp only [Snoop.step] at hs
    split at hs
    · rename_i hp
      have hw : s.place.waits = false := by rw [hp]; rfl
      cases ok with
      | true => cases hs; exact h.runs hw rfl
      | false => cases hs; exact h.setPlace hw rfl
    · cases hs
  | attach r =>
    simp only [Snoop.step] at hs
    split at hs
    · rename_i hp
      have hw : s.place.waits = false := by rw [hp]; rfl
      cases r with
      | attached => cases hs; exact h.runs hw rfl
      | noProcess => cases hs; exact h.setPlace hw rfl
      | denied => cases hs; exact h.setPlace hw rfl
    · cases hs
  | waitpid now regs => exact h.waitpid hs
  | read =>
    simp only [Snoop.step] at hs
    split at hs
    · rename_i st hp
      obtain ⟨p, hr, rfl⟩ := Option.map_eq_some_iff.1 hs
      exact h.setPlace (by rw [hp]; rfl) (SnoopPlace.waits_of_readPipe hr)
    · cases hs
  | ptrace =>
    simp only [Snoop.step] at hs
    split at hs
    · rename_i t hp
      have hw : s.place.waits = false := by rw [hp]; rfl
      split at hs
      · cases hs; exact h.runs hw rfl
      · cases hs; exact h.setPlace hw rfl
    · cases hs
  | traceme =>
    obtain ⟨-, hs⟩ := Option.ite_none_right_eq_some.1 hs
    cases hs
    exact h.setCode _
  | execvp ok =>
    obtain ⟨hc, hs⟩ := Option.ite_none_right_eq_some.1 hs
    cases ok with
    | true => cases hs; exact (h.event hc.1 rfl).setCode _
    | false => cases hs; exact h.setCode _
  | write =>
    obtain ⟨-, hs⟩ := Option.ite_none_right_eq_some.1 hs
    cases hs
    exact h.setCode _
  | stop sig =>
    obtain ⟨hc, hs⟩ := Option.ite_none_right_eq_some.1 hs
    cases hs
    exact h.event hc.1 rfl
  | exit =>
    obtain ⟨hc, hs⟩ := Option.ite_none_right_eq_some.1 hs
    cases hs
    exact h.event hc.1 rfl
  | die =>
    obtain ⟨hc, hs⟩ := Option.ite_none_right_eq_some.1 hs
    cases hs
    exact h.event hc rfl
  | kill => simp [Snoop.step, hk] at hs
  | raise => cases hs; exact ⟨h.consumed, h.received, h.turn⟩
  | handle => simp [Snoop.step, hb] at hs

end

theorem Snoop.Inv.reachable {e : SnoopEnv} {call : SnoopCall} {s : Snoop} (hb : e.blocked)
    (hk : e.kills = false) (h : Reachable (Snoop.step e) (init call) s) : s.Inv :=
  h.invariant (inv_init call) fun _ _ _ hi _ hs => hi.step hb hk hs

/-! ## Two ways to lose a status -/

/-- The tracee stops for the first time. -/
def SnoopCall.firstStop : SnoopCall → List SnoopAct
  | .snoopCommand => [.fork true, .traceme, .execvp true]
  | .snoopAttach => [.attach .attached, .stop sigstop]

/-- The tracer gets to `PTRACE_SYSCALL` after it. -/
def SnoopCall.toLoop : SnoopCall → List SnoopAct
  | .snoopCommand => [.waitpid 0 none, .read]
  | .snoopAttach => [.waitpid 0 none]

/-- The handler runs before the tracer is at `waitpid`: the tracer waits for a
    stop that has been reported. -/
theorem exists_not_owned_of_handle {e : SnoopEnv} (he : e.blocked = false) (call : SnoopCall) :
    ∃ s, Reachable (Snoop.step e) (Snoop.init call) s ∧ ¬s.Owned ∧
      s.place = .first call ∧ ∀ now regs, s.step e (.waitpid now regs) = none := by
  obtain ⟨b, k⟩ := e
  obtain rfl : b = false := he
  cases call with
  | snoopCommand =>
    refine ⟨_, .of_run (SnoopCall.firstStop .snoopCommand ++ [.handle]) rfl, fun h => ?_, rfl,
      fun _ _ => rfl⟩
    exact absurd h.consumed (by decide)
  | snoopAttach =>
    refine ⟨_, .of_run (SnoopCall.firstStop .snoopAttach ++ [.handle]) rfl, fun h => ?_, rfl,
      fun _ _ => rfl⟩
    exact absurd h.consumed (by decide)

/-- The tracee is killed in a stop it has reported: `PTRACE_SYSCALL` fails and the
    loop ends without a `waitpid`. -/
theorem exists_not_owned_of_kill {e : SnoopEnv} (he : e.kills) (call : SnoopCall) :
    ∃ s, Reachable (Snoop.step e) (Snoop.init call) s ∧ ¬s.Owned := by
  obtain ⟨b, k⟩ := e
  obtain rfl : k = true := he
  cases call with
  | snoopCommand =>
    refine ⟨_, .of_run (SnoopCall.firstStop .snoopCommand ++ SnoopCall.toLoop .snoopCommand ++
      [.kill, .ptrace]) rfl, fun h => ?_⟩
    exact absurd (h.returned _ rfl) (by decide)
  | snoopAttach =>
    refine ⟨_, .of_run (SnoopCall.firstStop .snoopAttach ++ SnoopCall.toLoop .snoopAttach ++
      [.kill, .ptrace]) rfl, fun h => ?_⟩
    exact absurd (h.returned _ rfl) (by decide)

/-- **The tracer owns its tracee in every run** iff SIGCHLD is blocked and the tracee
    is not killed in a stop. -/
theorem owned_iff (e : SnoopEnv) (call : SnoopCall) :
    (∀ s, Reachable (Snoop.step e) (Snoop.init call) s → s.Owned) ↔
      e.blocked = true ∧ e.kills = false := by
  constructor
  · intro h
    constructor
    · by_contra hb
      obtain ⟨s, hs, hn, -⟩ := exists_not_owned_of_handle (Bool.eq_false_iff.2 hb) call
      exact hn (h s hs)
    · by_contra hk
      obtain ⟨s, hs, hn⟩ := exists_not_owned_of_kill (by simpa using hk) call
      exact hn (h s hs)
  · rintro ⟨hb, hk⟩ s hs
    exact (Snoop.Inv.reachable hb hk hs).owned

/-- The stop after `execvp` is taken by the handler before `snoop_command` waits. -/
theorem handler_takes_exec_stop :
    ∃ s, run (Snoop.step ⟨false, false⟩) [.fork true, .traceme, .execvp true, .handle]
        (Snoop.init .snoopCommand) = some s ∧
      s.consumed = [.stopped sigtrap] ∧ s.received = [] ∧ ¬s.Owned ∧
      s.place.waits ∧ ∀ now regs, s.step ⟨false, false⟩ (.waitpid now regs) = none :=
  ⟨_, rfl, rfl, rfl, fun h => absurd h.consumed (by decide), rfl, fun _ _ => rfl⟩

end CShell
