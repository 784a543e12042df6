/-
  C-Shell formalization — reports of `waitpid` and the job table.

  A report changes the one job that records its process as not exited, and in
  it that one process (`Job.matchReport_cases`).  It changes no pid, number or
  group, and `remaining` stays the count of the processes that have not exited
  (`Job.wf_of_matchReport`).
-/
import CShell.Shell.Jobs

namespace CShell

open Lib

/-! ## One job -/

/-- The pids of all processes of the job. -/
def Job.pids (j : Job) : List ℕ := j.procs.map ProcInfo.pid

/-- The job records the process as not exited. -/
def Job.Has (pid : ℕ) (j : Job) : Prop :=
  j.active ∧ ∃ p ∈ j.procs, p.exited = false ∧ p.pid = pid

/-- A job as the registrations make it and the reports keep it. -/
structure Job.WF (j : Job) : Prop where
  active : j.active
  procs_ne : j.procs ≠ []
  remaining : j.remaining = j.procs.countP (!·.exited)

theorem Job.leader_eq (j : Job) : j.leader = j.pids.head? := by
  rw [leader, pids, List.head?_map]

theorem Job.leader_mem {j : Job} {l : ℕ} (h : j.leader = some l) : l ∈ j.pids :=
  List.mem_of_mem_head? (j.leader_eq ▸ h)

theorem Job.WF.leader_ne {j : Job} (wf : j.WF) : j.leader ≠ none := by
  rw [leader, Ne, Option.map_eq_none_iff, List.head?_eq_none_iff]
  exact wf.procs_ne

theorem Job.WF.remaining_nonneg {j : Job} (wf : j.WF) : 0 ≤ j.remaining :=
  wf.remaining ▸ Int.natCast_nonneg _

/-- No process remains iff all have exited. -/
theorem Job.WF.remaining_eq_zero {j : Job} (wf : j.WF) :
    j.remaining = 0 ↔ ∀ p ∈ j.procs, p.exited := by
  rw [wf.remaining, Int.natCast_eq_zero, List.countP_eq_zero]
  simp

theorem ProcInfo.matchReport_eq_none {pid : ℕ} {st : Status} {p : ProcInfo} :
    p.matchReport pid st = none ↔ ¬(p.exited = false ∧ p.pid = pid) := by
  rw [matchReport]
  split
  · rename_i h
    rcases h with h | h <;> simp [h]
  · simp_all

theorem Job.matchReport_eq_none {pid : ℕ} {st : Status} {j : Job} :
    j.matchReport pid st = none ↔ ¬j.Has pid := by
  simp only [matchReport, Has]
  split
  · simp [updateFirst_eq_none, ProcInfo.matchReport_eq_none, *]
  · simp [*]

theorem ProcInfo.matchReport_eq_some {pid : ℕ} {st : Status} {p q : ProcInfo} {b : Unit}
    (h : p.matchReport pid st = some (q, b)) :
    p.exited = false ∧ p.pid = pid ∧ q = p.report st := by
  rw [matchReport] at h
  split at h
  · cases h
  · obtain ⟨rfl, -⟩ := Prod.mk.inj (Option.some.inj h)
    simp_all

theorem ProcInfo.report_pid (st : Status) (p : ProcInfo) : (p.report st).pid = p.pid := by
  cases st <;> rfl

theorem ProcInfo.report_exited (st : Status) (p : ProcInfo) :
    (p.report st).exited = (st.terminated || p.exited) := by
  cases st <;> simp [report, Status.terminated]

/-- Everything a report changes in the job that has the process. -/
theorem Job.matchReport_cases {pid : ℕ} {st : Status} {j j' : Job} {n : Option Notification}
    (h : j.matchReport pid st = some (j', n)) :
    ∃ pre p post, j.procs = pre ++ p :: post ∧ p.exited = false ∧ p.pid = pid ∧
      j' = { j with
        procs := pre ++ p.report st :: post
        remaining := j.remaining - if st.terminated then 1 else 0 } ∧
      n = if st.terminated ∧ j'.remaining = 0 then j.leader.map (⟨·, st = .exited⟩) else none := by
  rw [matchReport] at h
  split at h
  case isFalse => cases h
  obtain ⟨⟨procs, u⟩, hu, h⟩ := Option.map_eq_some_iff.1 h
  obtain ⟨pre, p, q, post, hp, rfl, hq⟩ := exists_of_updateFirst hu
  obtain ⟨hex, hpid, rfl⟩ := ProcInfo.matchReport_eq_some hq
  refine ⟨pre, p, post, hp, hex, hpid, ?_⟩
  have hl : (pre ++ p.report st :: post).head?.map ProcInfo.pid = j.leader := by
    rw [leader, hp]
    cases pre <;> simp [ProcInfo.report_pid]
  by_cases ht : st.terminated
  · simp only [ht, if_true, true_and, Prod.mk.injEq] at h ⊢
    obtain ⟨rfl, rfl⟩ := h
    exact ⟨rfl, by rw [← hl]; rfl⟩
  · simp only [ht, Bool.false_eq_true, if_false, false_and, Int.sub_zero, Prod.mk.injEq] at h ⊢
    exact ⟨h.1.symm, h.2.symm⟩

theorem Job.pids_of_matchReport {pid : ℕ} {st : Status} {j j' : Job} {n : Option Notification}
    (h : j.matchReport pid st = some (j', n)) : j'.pids = j.pids := by
  obtain ⟨pre, p, post, hp, -, -, rfl, -⟩ := matchReport_cases h
  simp [pids, hp, ProcInfo.report_pid]

theorem Job.wf_of_matchReport {pid : ℕ} {st : Status} {j j' : Job} {n : Option Notification}
    (h : j.matchReport pid st = some (j', n)) (wf : j.WF) : j'.WF := by
  obtain ⟨pre, p, post, hp, hex, -, rfl, -⟩ := matchReport_cases h
  have hr := wf.remaining
  rw [hp, List.countP_append, List.countP_cons] at hr
  refine ⟨wf.active, by simp, ?_⟩
  simp only [List.countP_append, List.countP_cons, ProcInfo.report_exited, hex, hr]
  cases st.terminated with
  | false => simp
  | true => simp; omega

/-- A process of the job the report does not end stays recorded. -/
theorem Job.has_of_matchReport {pid pid' : ℕ} {st : Status} {j j' : Job}
    {n : Option Notification} (h : j.matchReport pid st = some (j', n))
    (hne : st.terminated → pid' ≠ pid) (hj : j.Has pid') : j'.Has pid' := by
  obtain ⟨pre, p, post, hp, hex, rfl, rfl, -⟩ := matchReport_cases h
  obtain ⟨ha, q, hq, hqex, rfl⟩ := hj
  rw [hp, List.mem_append, List.mem_cons] at hq
  rcases hq with hq | rfl | hq
  · exact ⟨ha, q, by simp [hq], hqex, rfl⟩
  · refine ⟨ha, q.report st, by simp, ?_, ProcInfo.report_pid _ _⟩
    rw [ProcInfo.report_exited, hex, Bool.or_false, Bool.eq_false_iff]
    exact fun ht => hne ht rfl
  · exact ⟨ha, q, by simp [hq], hqex, rfl⟩

/-! ### A new job -/

theorem Job.pids_new (serial : ℕ) (n : ℤ) (state : ProcState) (pgid : ℕ)
    (procs : List (ℕ × Str)) (cmdline : Str) :
    (new serial n state pgid procs cmdline).pids = (procs.map Prod.fst).take maxProcs := by
  rw [pids, new, List.map_map, ← List.map_take]
  rfl

theorem Job.wf_new {procs : List (ℕ × Str)} (h : procs ≠ []) (serial : ℕ) (n : ℤ)
    (state : ProcState) (pgid : ℕ) (cmdline : Str) :
    (new serial n state pgid procs cmdline).WF where
  active := rfl
  procs_ne := by simp [new, maxProcs, h]
  remaining := by
    rw [List.countP_eq_length.2]
    · simp [new]
    · simp only [new, List.forall_mem_map]
      exact fun _ _ => rfl

/-! ### Marking a job -/

theorem ProcInfo.mark_pid (state : ProcState) (p : ProcInfo) : (p.mark state).pid = p.pid := by
  rw [mark]
  split <;> rfl

theorem ProcInfo.mark_exited (state : ProcState) (p : ProcInfo) :
    (p.mark state).exited = p.exited := by
  rw [mark]
  split <;> rfl

theorem Job.mark_cases {state : ProcState} {n : ℤ} {j j' : Job} {b : Unit}
    (h : Job.mark state n j = some (j', b)) :
    j.hasNumber n ∧ j' = { j with procs := j.procs.map (ProcInfo.mark state) } := by
  rw [mark] at h
  split at h
  · exact ⟨‹_›, (Prod.mk.inj (Option.some.inj h)).1.symm⟩
  · cases h

theorem Job.wf_of_mark {state : ProcState} {n : ℤ} {j j' : Job} {b : Unit}
    (h : Job.mark state n j = some (j', b)) (wf : j.WF) : j'.WF := by
  obtain ⟨-, rfl⟩ := mark_cases h
  refine ⟨wf.active, by simpa using wf.procs_ne, ?_⟩
  simp only [List.countP_map, Function.comp_def, ProcInfo.mark_exited]
  exact wf.remaining

theorem Job.pids_of_mark {state : ProcState} {n : ℤ} {j j' : Job} {b : Unit}
    (h : Job.mark state n j = some (j', b)) : j'.pids = j.pids := by
  obtain ⟨-, rfl⟩ := mark_cases h
  simp only [pids, List.map_map, Function.comp_def, ProcInfo.mark_pid]

/-! ## The table -/

theorem JobTable.deliver_of_none {t : JobTable} {pid : ℕ} {st : Status}
    (h : updateFirst (Job.matchReport pid st) t.jobs = none) : t.deliver pid st = t := by
  rw [deliver, h]

theorem JobTable.deliver_of_some {t : JobTable} {pid : ℕ} {st : Status} {jobs : List Job}
    {n : Option Notification}
    (h : updateFirst (Job.matchReport pid st) t.jobs = some (jobs, n)) :
    t.deliver pid st = { t with jobs := jobs, pipe := t.pipe ++ n.toList } := by
  rw [deliver, h]

theorem JobTable.deliver_map {γ : Type} {g : Job → γ} {t : JobTable} {pid : ℕ} {st : Status}
    (hg : ∀ j j' n, Job.matchReport pid st j = some (j', n) → g j' = g j) :
    (t.deliver pid st).jobs.map g = t.jobs.map g := by
  rcases h : updateFirst (Job.matchReport pid st) t.jobs with _ | ⟨jobs, n⟩
  · rw [deliver_of_none h]
  · rw [deliver_of_some h]
    exact map_updateFirst hg h

theorem JobTable.deliver_leaders (t : JobTable) (pid : ℕ) (st : Status) :
    (t.deliver pid st).jobs.map Job.leader = t.jobs.map Job.leader :=
  deliver_map fun j j' n h => by rw [Job.leader_eq, Job.leader_eq, Job.pids_of_matchReport h]

theorem Job.serial_of_matchReport {pid : ℕ} {st : Status} (j j' : Job)
    (n : Option Notification) (h : j.matchReport pid st = some (j', n)) :
    j'.serial = j.serial := by
  obtain ⟨_, _, _, -, -, -, rfl, -⟩ := matchReport_cases h
  rfl

theorem Job.jobNumber_of_matchReport {pid : ℕ} {st : Status} (j j' : Job)
    (n : Option Notification) (h : j.matchReport pid st = some (j', n)) :
    j'.jobNumber = j.jobNumber := by
  obtain ⟨_, _, _, -, -, -, rfl, -⟩ := matchReport_cases h
  rfl

theorem JobTable.deliver_groups (t : JobTable) (pid : ℕ) (st : Status) :
    (t.deliver pid st).jobs.map Job.pgid = t.jobs.map Job.pgid :=
  deliver_map fun j j' n h => by
    obtain ⟨_, _, _, -, -, -, rfl, -⟩ := Job.matchReport_cases h
    rfl

theorem JobTable.deliver_serials (t : JobTable) (pid : ℕ) (st : Status) :
    (t.deliver pid st).jobs.map Job.serial = t.jobs.map Job.serial :=
  deliver_map Job.serial_of_matchReport

@[simp] theorem JobTable.deliver_printed (t : JobTable) (pid : ℕ) (st : Status) :
    (t.deliver pid st).printed = t.printed := by
  rw [deliver]; split <;> rfl

@[simp] theorem JobTable.deliver_nextJobNumber (t : JobTable) (pid : ℕ) (st : Status) :
    (t.deliver pid st).nextJobNumber = t.nextJobNumber := by
  rw [deliver]; split <;> rfl

@[simp] theorem JobTable.deliver_registered (t : JobTable) (pid : ℕ) (st : Status) :
    (t.deliver pid st).registered = t.registered := by
  rw [deliver]; split <;> rfl

end CShell
