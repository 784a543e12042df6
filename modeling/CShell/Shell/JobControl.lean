/-
  C-Shell formalization — the shell and its children (`terminal.c`,
  `command.c`, `background.c`, `resume.c`).

  Three places reap children: `sigchld_handler`, `wait_foreground_group` and
  `wait_foreground_group_timeout`.  The model has the children as the kernel
  keeps them, each with the report `waitpid` would give for it, and the places
  of the shell's code between which reports arrive.

  The launchers and `exec_resume` block `SIGCHLD` from before the first `fork`
  to after the registration, or over the whole wait; these sections are single
  steps, but for the waits in them, which are a step for each `waitpid`.  The
  handler runs only where `SIGCHLD` is not blocked.
-/
import CShell.Lib.Steps
import CShell.Shell.Jobs

namespace CShell

open Lib

/-! ## The children -/

/-- A child no `waitpid` has reaped.  Its group is that of the pipeline it was
    forked for, or `none` for the shell's own. -/
structure Child where
  pid : ℕ
  pgid : Option ℕ
  /-- a status change that is not reported yet -/
  report : Option Status
  deriving DecidableEq, Repr

/-- A number that is in use neither for a process nor for a group. -/
def Unused (cs : List Child) (pid : ℕ) : Prop :=
  ∀ c ∈ cs, c.pid ≠ pid ∧ c.pgid ≠ some pid

instance (cs : List Child) (pid : ℕ) : Decidable (Unused cs pid) :=
  inferInstanceAs (Decidable (∀ c ∈ cs, _))

/-- A process that has terminated changes no more. -/
def Child.change (pid : ℕ) (st : Status) (c : Child) : Child :=
  if c.pid = pid ∧ ¬c.report.any Status.terminated then { c with report := some st } else c

/-- The children after `waitpid` returned `pid` with `st`. -/
def collectReport (pid : ℕ) (st : Status) (cs : List Child) : List Child :=
  if st.terminated then cs.filter (·.pid ≠ pid)
  else cs.map fun c => if c.pid = pid then { c with report := none } else c

/-! ## The foreground wait -/

/-- What `wait_foreground_group` returns: 0, 1, 2 and 3. -/
inductive WaitResult where
  | finished | stopped | signaled | timedOut
  deriving DecidableEq, Repr

/-- The variables of `wait_foreground_group`.  An entry of `pids` is a child,
    or `none` where `fork` had failed, with its `finished` flag. -/
structure Wait where
  pgid : ℕ
  pids : List (Option ℕ × Bool)
  wasSignaled : Bool
  /-- the processes this call has reaped; the code does not keep them -/
  reaped : List ℕ
  deriving DecidableEq, Repr

/-- The variables at the start of the call. -/
def Wait.start (pgid : ℕ) (pids : List (Option ℕ)) : Wait :=
  ⟨pgid, pids.map (·, false), false, []⟩

/-- `finished[i] = 1` for the first entry with this pid. -/
def Wait.finish (pid : ℕ) (w : Wait) : Wait :=
  match updateFirst (fun e => if e.1 = some pid ∧ !e.2 then some ((e.1, true), ()) else none) w.pids with
  | some (pids, _) => { w with pids := pids }
  | none => w

/-- What the wait returns when no child is left. -/
def Wait.result (w : Wait) : WaitResult := if w.wasSignaled then .signaled else .finished

/-- The body of the loop for a report; `none` if the loop goes on. -/
def Wait.got (pid : ℕ) (st : Status) (w : Wait) : Wait × Option WaitResult :=
  if st = .stopped then (w, some .stopped)
  else
    let w := { w with wasSignaled := w.wasSignaled || st = .signaled }
    let w := if st.terminated then { w.finish pid with reaped := w.reaped ++ [pid] } else w
    (w, if w.pids.all Prod.snd then some w.result else none)

theorem Wait.got_pgid (w : Wait) (pid : ℕ) (st : Status) : (w.got pid st).1.pgid = w.pgid := by
  rw [got]
  split
  · rfl
  · dsimp only
    split
    · rw [finish]
      split <;> rfl
    · rfl

theorem Wait.result_ne_stopped (w : Wait) : w.result ≠ .stopped := by
  rw [result]
  split <;> nofun

/-! ## The shell -/

/-- What `exec_resume` has copied from the table. -/
structure Resume where
  job : ℤ
  pgid : ℕ
  pids : List ℕ
  fg : Bool
  timeout : Bool
  deriving DecidableEq, Repr

/-- Where the shell is. -/
inductive Place where
  /-- outside the launchers and `exec_resume`, perhaps draining -/
  | main (d : Drain)
  /-- in `wait_foreground_group` for a pipeline just launched -/
  | launched (w : Wait) (procs : List (ℕ × Str)) (cmdline : Str)
  /-- in `exec_resume`, `SIGCHLD` not blocked yet -/
  | resuming (r : Resume)
  /-- in `wait_foreground_group_timeout` -/
  | resumed (w : Wait) (job : ℤ) (timeout : Bool)
  deriving DecidableEq, Repr

/-- The shell: the job table, its children, and where its code is. -/
structure Shell where
  table : JobTable
  children : List Child
  place : Place
  deriving DecidableEq, Repr

/-- The start of the shell. -/
def Shell.init : Shell := ⟨.empty, [], .main .idle⟩

/-- `SIGCHLD` is not blocked. -/
def Place.unblocked : Place → Bool
  | main _ | resuming _ => true
  | launched _ _ _ | resumed _ _ _ => false

/-- The size of `children` in the launchers. -/
def maxChildren : ℕ := 100

/-- The stages of a launch, each with its child, or `none` where `fork`
    failed, and its name: they fit `children[100]`, and the pids are new. -/
def Launchable (cs : List Child) (stages : List (Option ℕ × Str)) : Prop :=
  stages.length ≤ maxChildren ∧ (stages.filterMap Prod.fst).Nodup ∧
    ∀ p ∈ stages.filterMap Prod.fst, Unused cs p

instance (cs : List Child) (stages : List (Option ℕ × Str)) : Decidable (Launchable cs stages) :=
  inferInstanceAs (Decidable (_ ∧ _ ∧ _))

/-- The children `fork` returned, with the names of their stages. -/
def spawned (stages : List (Option ℕ × Str)) : List (ℕ × Str) :=
  stages.filterMap fun s => s.1.map (·, s.2)

/-- The new children, put into the group of the first; without a first child
    there is no group to join. -/
def newChildren (stages : List (Option ℕ × Str)) : List Child :=
  (spawned stages).map fun p => ⟨p.1, stages.head?.bind Prod.fst, none⟩

/-- The end of `run_pipeline` after the wait. -/
def Shell.endLaunch (pgid : ℕ) (procs : List (ℕ × Str)) (cmdline : Str) (s : Shell) :
    WaitResult → Shell
  | .stopped => { s with
      table := s.table.registerStoppedJob pgid procs cmdline, place := .main .idle }
  | .finished | .signaled | .timedOut => { s with place := .main .idle }

/-- The end of `exec_resume` after the wait. -/
def Shell.endResume (job : ℤ) (s : Shell) : WaitResult → Shell
  | .stopped => { s with table := s.table.markJobStopped job, place := .main .idle }
  | .timedOut | .finished | .signaled =>
    { s with table := s.table.removeJobByNumber job, place := .main .idle }

/-- What the shell, its children or the kernel do next. -/
inductive ShellAct where
  /-- fork an input writer or an output copier -/
  | helper (pid : ℕ)
  /-- a child changes its status -/
  | change (pid : ℕ) (st : Status)
  /-- `waitpid` in the handler returns -/
  | deliver (pid : ℕ) (st : Status)
  /-- `run_pipeline` up to its wait -/
  | launch (stages : List (Option ℕ × Str)) (cmdline : Str)
  /-- `run_pipeline_background` or `run_background` -/
  | launchBackground (stages : List (Option ℕ × Str)) (cmdline : Str)
  /-- `exec_resume` up to the blocking of `SIGCHLD` -/
  | resume (job : ℤ) (fg timeout : Bool)
  /-- `exec_resume` from there up to its wait or its end -/
  | proceed
  /-- `waitpid` in a foreground wait returns -/
  | wait (pid : ℕ) (st : Status)
  /-- `waitpid` in a foreground wait fails: the group has no more children -/
  | waitNone
  /-- the alarm of `wait_foreground_group_timeout` -/
  | alarm
  | drain
  deriving DecidableEq, Repr

/-- `waitpid` has this report, for a child of the given groups. -/
def Reports (cs : List Child) (pid : ℕ) (st : Status) (inGroup : Option ℕ → Bool) : Prop :=
  ∃ c ∈ cs, c.pid = pid ∧ c.report = some st ∧ inGroup c.pgid

instance (cs : List Child) (pid : ℕ) (st : Status) (inGroup : Option ℕ → Bool) :
    Decidable (Reports cs pid st inGroup) :=
  inferInstanceAs (Decidable (∃ c ∈ cs, _))

/-- A foreground wait goes on or ends. -/
def Shell.waited (s : Shell) (r : Wait × Option WaitResult) : Option Shell :=
  match s.place, r.2 with
  | .launched _ procs cmdline, none => some { s with place := .launched r.1 procs cmdline }
  | .launched _ procs cmdline, some res => some (s.endLaunch r.1.pgid procs cmdline res)
  | .resumed _ job timeout, none => some { s with place := .resumed r.1 job timeout }
  | .resumed _ job _, some res => some (s.endResume job res)
  | _, _ => none

/-- The foreground wait the shell is in. -/
def Place.wait? : Place → Option Wait
  | launched w _ _ | resumed w _ _ => some w
  | main _ | resuming _ => none

/-- One step of the shell, of a child or of the handler. -/
def Shell.step (s : Shell) : ShellAct → Option Shell
  | .helper pid =>
    if s.place = .main .idle ∧ Unused s.children pid then
      some { s with children := s.children ++ [⟨pid, none, none⟩] }
    else none
  | .change pid st => some { s with children := s.children.map (Child.change pid st) }
  | .deliver pid st =>
    if s.place.unblocked ∧ Reports s.children pid st (fun _ => true) then
      some { s with table := s.table.deliver pid st, children := collectReport pid st s.children }
    else none
  | .launch stages cmdline =>
    if s.place = .main .idle ∧ Launchable s.children stages then
      let s' := { s with children := s.children ++ newChildren stages }
      match stages.head?.bind Prod.fst with
      | some pgid =>
        some { s' with
          place := .launched (.start pgid (stages.map Prod.fst)) (spawned stages) cmdline }
      | none => some s'
    else none
  | .launchBackground stages cmdline =>
    if s.place = .main .idle ∧ Launchable s.children stages then
      let s' := { s with children := s.children ++ newChildren stages }
      match stages.head?.bind Prod.fst with
      | some pgid =>
        some { s' with table := s.table.registerBackgroundJob pgid (spawned stages) cmdline }
      | none => some s'
    else none
  | .resume job fg timeout =>
    if s.place = .main .idle then
      match (s.table.getActivities maxJobs).find? (·.jobNumber = job) with
      | some a => some { s with
          place := .resuming ⟨a.jobNumber, a.pgid, a.procs.map ActivityProc.pid, fg, timeout⟩ }
      | none => some s
    else none
  | .proceed =>
    match s.place with
    | .resuming r =>
      if r.pids = [] then
        some { s with table := s.table.removeJobByNumber r.job, place := .main .idle }
      else
        let table := s.table.markJobRunning r.job
        if r.fg then
          some { s with
            table := table
            place := .resumed (.start r.pgid (r.pids.map some)) r.job r.timeout }
        else some { s with table := table, place := .main .idle }
    | _ => none
  | .wait pid st =>
    match s.place.wait? with
    | some w =>
      -- without `WCONTINUED` a continued child is not reported here
      if Reports s.children pid st (· = some w.pgid) ∧ st ≠ .continued then
        { s with children := collectReport pid st s.children }.waited (w.got pid st)
      else none
    | none => none
  | .waitNone =>
    match s.place.wait? with
    | some w =>
      if ∀ c ∈ s.children, c.pgid ≠ some w.pgid then s.waited (w, some w.result) else none
    | none => none
  | .alarm =>
    match s.place with
    | .resumed w _ true => s.waited (w, some .timedOut)
    | _ => none
  | .drain =>
    match s.place with
    | .main d =>
      let r := s.table.drainStep d
      some { s with table := r.1, place := .main r.2 }
    | _ => none

/-- The shell waits for a line. -/
def Shell.AtPrompt (s : Shell) : Prop := s.place = .main .idle

instance (s : Shell) : Decidable s.AtPrompt := inferInstanceAs (Decidable (_ = _))

end CShell
