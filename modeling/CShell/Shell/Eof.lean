/-
  C-Shell formalization — leaving the shell (`main.c`, `terminal.c`).

  `main` reads a line with `fgets`.  A `NULL` means the end of the input, or a
  read interrupted by a signal, since the handlers of `SIGINT` and `SIGTSTP`
  are installed by `signal` and reads are not restarted then; `main` calls
  `handle_eof` for both.  `previous_eof` is set there and cleared by a line.

  A run is the list of what `main` reads, each with the job table at that
  time.  `handle_eof` looks at the table twice, and reports of the handler may
  come in between.

  * `sendSighup_later`: the groups signalled are those of the jobs, whatever
    reports come in between;
  * `mainLoop_intended_iff`: the loop ends where it should iff interrupted
    reads come only as in `Undisturbed`.
-/
import CShell.Shell.Table

namespace CShell

open Lib

/-! ## The loop of `main` -/

/-- What `fgets` comes back with. -/
inductive Input where
  | line
  | eof
  /-- `NULL`, but not at the end of the input -/
  | interrupted
  deriving DecidableEq, Repr

/-- What is read, and the job table at that time, with the group of a leader in
    each job. -/
structure Reading where
  input : Input
  table : JobTable
  /-- the reports between the two calls of `get_activities` -/
  reports : List (ℕ × Status)
  kept : KeptSlots table.jobs
  groups : ∀ j ∈ table.jobs, 0 < j.pgid

/-- The table at the second call. -/
def Reading.later (r : Reading) : JobTable :=
  r.reports.foldl (fun t p => t.deliver p.1 p.2) r.table

/-- The loops of `handle_eof` over the activities. -/
def JobTable.anyStopped (t : JobTable) : Bool :=
  (t.getActivities maxJobs).any fun a => a.procs.any ActivityProc.stopped

/-- The groups `send_sighup_to_all_jobs` signals. -/
def JobTable.sendSighup (t : JobTable) : List ℕ :=
  ((t.getActivities maxJobs).map ActivityJob.pgid).filter (0 < ·)

/-- `handle_eof`: its result, the new `previous_eof` and the groups
    signalled. -/
def handleEof (previousEof : Bool) (r : Reading) : Bool × Bool × List ℕ :=
  if !r.table.anyStopped then (true, previousEof, r.later.sendSighup)
  else if !previousEof then (false, true, [])
  else (true, previousEof, r.later.sendSighup)

/-- How far a run goes: where it ends, if it does, and each group signalled
    with the place at which it is. -/
structure Outcome where
  ended : Option ℕ
  sighups : List (ℕ × ℕ)
  deriving DecidableEq, Repr

/-- The loop of `main` from the reading number `n` on. -/
def mainLoop (n : ℕ) (previousEof : Bool) (sighups : List (ℕ × ℕ)) : List Reading → Outcome
  | [] => ⟨none, sighups⟩
  | r :: rs =>
    match r.input with
    | .line => mainLoop (n + 1) false sighups rs
    | .eof | .interrupted =>
      let h := handleEof previousEof r
      let sighups := sighups ++ h.2.2.map (n, ·)
      if h.1 then ⟨some n, sighups⟩ else mainLoop (n + 1) h.2.1 sighups rs

/-! ## What is intended -/

/-- A process that has not exited is stopped. -/
def JobTable.HasStopped (t : JobTable) : Prop :=
  ∃ j ∈ t.jobs, ∃ p ∈ j.procs, p.exited = false ∧ p.state = .stopped

instance (t : JobTable) : Decidable t.HasStopped :=
  inferInstanceAs (Decidable (∃ j ∈ t.jobs, _))

/-- The run ends at the first end of the input at which no process is stopped
    or the reading before was an end of the input too; then every job's group
    is signalled. -/
def intended (n : ℕ) (prev : Option Input) : List Reading → Outcome
  | [] => ⟨none, []⟩
  | r :: rs =>
    if r.input = .eof ∧ (¬r.table.HasStopped ∨ prev = some .eof) then
      ⟨some n, r.table.jobs.map fun j => (n, j.pgid)⟩
    else intended (n + 1) (some r.input) rs

/-- As long as the run should go on, a read is interrupted only while a
    process is stopped, and only at the start or after a line; and after an
    interrupted read there is no end of the input while one is stopped. -/
def Undisturbed (prev : Option Input) : List Reading → Prop
  | [] => True
  | r :: rs =>
    match r.input with
    | .line => Undisturbed (some .line) rs
    | .eof => r.table.HasStopped → prev ≠ some .eof →
        prev ≠ some .interrupted ∧ Undisturbed (some .eof) rs
    | .interrupted => r.table.HasStopped ∧ (prev = none ∨ prev = some .line) ∧
        Undisturbed (some .interrupted) rs

/-! ## The table at the end of the input -/

section
variable {t : JobTable}

/-- All jobs are handed out. -/
theorem KeptSlots.getActivities (h : KeptSlots t.jobs) :
    t.getActivities maxJobs = t.jobs.map Job.activity := by
  have hactive : t.jobs.filter Job.active = t.jobs :=
    List.filter_eq_self.2 fun j hj => (h.kept j hj).wf.active
  rw [JobTable.getActivities, hactive, List.take_of_length_le h.count]

theorem Job.Kept.any_stopped {j : Job} (h : j.Kept) :
    j.activity.procs.any ActivityProc.stopped ↔
      ∃ p ∈ j.procs, p.exited = false ∧ p.state = .stopped := by
  have hlen : (j.procs.filter (!·.exited)).length ≤ maxActivityProcs :=
    Nat.le_trans (List.length_filter_le ..) h.procs_le
  simp only [Job.activity, List.take_of_length_le hlen, List.any_map, List.any_eq_true,
    List.mem_filter, Bool.not_eq_true', Function.comp_apply, decide_eq_true_eq, and_assoc]

theorem KeptSlots.anyStopped (h : KeptSlots t.jobs) :
    t.anyStopped ↔ t.HasStopped := by
  rw [JobTable.anyStopped, h.getActivities, List.any_map, List.any_eq_true, JobTable.HasStopped]
  refine exists_congr fun j => and_congr_right fun hj => ?_
  exact (h.kept j hj).any_stopped

end

theorem Reading.later_groups (r : Reading) :
    r.later.jobs.map Job.pgid = r.table.jobs.map Job.pgid ∧ KeptSlots r.later.jobs := by
  rw [Reading.later]
  have hr := r.kept
  generalize r.table = t at hr
  induction r.reports generalizing t with
  | nil => exact ⟨rfl, hr⟩
  | cons p ps ih =>
    obtain ⟨hgroups, hkept⟩ := ih _ (hr.deliver p.1 p.2)
    exact ⟨hgroups.trans (t.deliver_groups p.1 p.2), hkept⟩

/-- **Every group is signalled once**, whatever the handler is told between
    the two calls. -/
theorem Reading.sendSighup_later (r : Reading) :
    r.later.sendSighup = r.table.jobs.map Job.pgid := by
  obtain ⟨hgroups, hkept⟩ := r.later_groups
  have hpgid : (r.later.getActivities maxJobs).map ActivityJob.pgid = r.later.jobs.map Job.pgid := by
    rw [hkept.getActivities, List.map_map]
    rfl
  rw [JobTable.sendSighup, hpgid, hgroups, List.filter_eq_self]
  intro g hg
  obtain ⟨j, hj, rfl⟩ := List.mem_map.1 hg
  exact decide_eq_true (r.groups j hj)

/-- What `handle_eof` does, in terms of the table. -/
theorem handleEof_eq (previousEof : Bool) (r : Reading) :
    handleEof previousEof r =
      if r.table.HasStopped ∧ previousEof = false then (false, true, [])
      else (true, previousEof, r.table.jobs.map Job.pgid) := by
  rw [handleEof, r.sendSighup_later]
  have hst := r.kept.anyStopped
  by_cases h : r.table.HasStopped
  · cases previousEof <;> simp [hst.2 h, h]
  · have hno : r.table.anyStopped = false := by rwa [← Bool.not_eq_true, hst]
    simp [hno, h]

/-! ## Where the loop ends -/

theorem le_of_intended {rs : List Reading} {n k : ℕ} {prev : Option Input}
    (h : (intended n prev rs).ended = some k) : n ≤ k := by
  induction rs generalizing n prev with
  | nil => cases h
  | cons r rs ih =>
    rw [intended] at h
    split at h
    · exact Nat.le_of_eq (Option.some.inj h)
    · exact Nat.le_of_succ_le (ih h)

/-- A run that ends at once, where it should go on. -/
theorem ended_ne_intended (rs : List Reading) (n : ℕ) (prev : Option Input) (l : List (ℕ × ℕ)) :
    (⟨some n, l⟩ : Outcome) ≠ intended (n + 1) prev rs := by
  intro h
  have hle := @le_of_intended rs (n + 1) n prev (by rw [← h])
  omega

section
variable {r : Reading} {n : ℕ} {previousEof : Bool} {prev : Option Input}

theorem mainLoop_line (rs : List Reading) (h : r.input = .line) :
    mainLoop n previousEof [] (r :: rs) = mainLoop (n + 1) false [] rs := by
  rw [mainLoop, h]

/-- The end of the input and an interrupted read are not told apart. -/
theorem mainLoop_null (rs : List Reading) (h : r.input ≠ .line) :
    mainLoop n previousEof [] (r :: rs) =
      if r.table.HasStopped ∧ previousEof = false then mainLoop (n + 1) true [] rs
      else ⟨some n, r.table.jobs.map fun j => (n, j.pgid)⟩ := by
  have hnull : mainLoop n previousEof [] (r :: rs) =
      if (handleEof previousEof r).1 then ⟨some n, (handleEof previousEof r).2.2.map (n, ·)⟩
      else mainLoop (n + 1) (handleEof previousEof r).2.1
        ((handleEof previousEof r).2.2.map (n, ·)) rs := by
    rw [mainLoop]
    cases hin : r.input with
    | line => exact absurd hin h
    | eof => rfl
    | interrupted => rfl
  rw [hnull, handleEof_eq]
  by_cases hst : r.table.HasStopped ∧ previousEof = false
  · simp [hst]
  · simp [if_neg hst, Function.comp_def]

theorem intended_go (rs : List Reading)
    (h : ¬(r.input = .eof ∧ (¬r.table.HasStopped ∨ prev = some .eof))) :
    intended n prev (r :: rs) = intended (n + 1) (some r.input) rs := by
  rw [intended, if_neg h]

end

/-- `previous_eof` is set after every reading that was not a line. -/
theorem mainLoop_iff (rs : List Reading) (n : ℕ) (previousEof : Bool) (prev : Option Input)
    (hprev : previousEof = false ↔ prev = none ∨ prev = some .line) :
    mainLoop n previousEof [] rs = intended n prev rs ↔ Undisturbed prev rs := by
  induction rs generalizing n previousEof prev with
  | nil => exact iff_of_true rfl trivial
  | cons r rs ih =>
    rw [Undisturbed]
    cases hin : r.input with
    | line =>
      rw [mainLoop_line rs hin, intended_go rs (by simp [hin]), hin]
      exact ih (n + 1) false (some .line) (by simp)
    | eof =>
      rw [mainLoop_null rs (by simp [hin])]
      by_cases hend : ¬r.table.HasStopped ∨ prev = some .eof
      · -- both end here
        have hflag : ¬(r.table.HasStopped ∧ previousEof = false) := by
          rintro ⟨hst, hf⟩
          rcases hprev.1 hf with rfl | rfl <;> simp [hst] at hend
        rw [if_neg hflag, intended, if_pos ⟨hin, hend⟩]
        exact iff_of_true rfl fun hst hne => (hend.elim (· hst) hne).elim
      · obtain ⟨hst, hne⟩ := not_or.1 hend
        rw [intended_go rs fun h => hend h.2, hin]
        simp only [not_not.1 hst, hne, ne_eq, not_false_eq_true, true_implies, true_and]
        by_cases hint : prev = some .interrupted
        · have hflag : previousEof ≠ false := fun hf => by
            rw [hprev, hint] at hf
            simp at hf
          rw [if_neg hflag]
          exact iff_of_false (ended_ne_intended rs n _ _) fun h => h.1 hint
        · have hflag : previousEof = false := by
            rw [hprev]
            match prev, hne, hint with
            | none, _, _ => exact .inl rfl
            | some .line, _, _ => exact .inr rfl
          rw [if_pos hflag, ih (n + 1) true (some .eof) (by simp)]
          exact (and_iff_right hint).symm
    | interrupted =>
      rw [mainLoop_null rs (by simp [hin]), intended_go rs (by simp [hin]), hin]
      simp only [← hprev]
      by_cases hgo : r.table.HasStopped ∧ previousEof = false
      · rw [if_pos hgo, ih (n + 1) true (some .interrupted) (by simp)]
        exact ⟨fun h => ⟨hgo.1, hgo.2, h⟩, fun h => h.2.2⟩
      · rw [if_neg hgo]
        exact iff_of_false (ended_ne_intended rs n _ _) fun h => hgo ⟨h.1, h.2.1⟩

/-- **The loop ends and signals as intended iff no interrupted read disturbs
    it**, for every sequence of readings. -/
theorem mainLoop_intended_iff (rs : List Reading) :
    mainLoop 0 false [] rs = intended 0 none rs ↔ Undisturbed none rs :=
  mainLoop_iff rs 0 false none (by simp)

/-- `Ctrl-C` at the prompt while a job runs. -/
def interruptedRead : Reading where
  input := .interrupted
  table := JobTable.registerBackgroundJob 5 [(5, str "sleep")] (str "sleep 9") .empty
  reports := []
  kept := (TableState.Inv.reachable (s := ⟨_, .idle⟩)
    (.of_run [.registerBackground 5 [(5, str "sleep")] (str "sleep 9")] rfl)).registered.toKeptSlots
  groups := by decide

/-- The shell is left, and the job is signalled. -/
theorem interrupt_leaves_shell :
    mainLoop 0 false [] [interruptedRead] = ⟨some 0, [(0, 5)]⟩ ∧
      intended 0 none [interruptedRead] = ⟨none, []⟩ := by
  decide

end CShell
