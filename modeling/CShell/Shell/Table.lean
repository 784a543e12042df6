/-
  C-Shell formalization — the representation of the job table
  (`background.c`).

  The functions on the table are called in any order, with any arguments and
  with reports of the handler for any pid at any time, also while
  `drain_background_notifications` runs (`TableState.step`).  It removes a job
  in two writes: it copies the last slot over that of the job, and lowers
  `job_count`.  In between the last slot does not count (`TableState.tracked`).

  `Registered` is what every run keeps: the number of a job is the `int` that
  comes from the place of its registration.  `Represents` is what the table
  should be: the numbers are positive, distinct and smaller than
  `next_job_number`.  The two agree as long as no `int` overflows.

  * `Registered.update`, `Registered.swapRemove`, `Registered.snoc`: a job is
    changed in place, removed and added;
  * `TableState.Inv.reachable`: `Registered` holds in every reachable state;
  * `table_represents_iff`: a run has a table as it should be in all its states
    iff no registration finds room after 2 ^ 31 - 2 others have;
  * `JobSystem.reachable_table`: the system of jobs and children is one of the
    runs.
-/
import CShell.Lib.Steps
import CShell.Shell.Notify

namespace CShell

open Lib

/-! ## The representation -/

/-- A job is active, has between 1 and 100 processes, and `remaining` counts
    those that have not exited. -/
structure Job.Kept (j : Job) : Prop where
  wf : j.WF
  procs_le : j.procs.length ≤ maxProcs

/-- At most 100 slots, each with such a job. -/
structure KeptSlots (js : List Job) : Prop where
  count : js.length ≤ maxJobs
  kept : ∀ j ∈ js, j.Kept

/-- The table as it should be: the numbers of the jobs are distinct, positive
    and smaller than the next one. -/
structure Represents (js : List Job) (next : ℤ) : Prop extends KeptSlots js where
  nodup : (js.map Job.jobNumber).Nodup
  number : ∀ j ∈ js, 0 < j.jobNumber ∧ j.jobNumber < next

/-- The table as the code keeps it: the jobs are of different ones of the `n`
    registrations, and each has the `int` that was its turn. -/
structure Registered (js : List Job) (n : ℕ) : Prop extends KeptSlots js where
  nodup : (js.map Job.serial).Nodup
  lt : ∀ j ∈ js, j.serial < n
  number : ∀ j ∈ js, j.jobNumber = toInt32 (j.serial + 1)

theorem toInt32_succ {n : ℕ} (h : n + 1 < 2 ^ 31) : toInt32 (n + 1) = n + 1 :=
  toInt32_eq_self (by omega) (by omega)

section
variable {js js' : List Job} {n : ℕ} {β : Type} {b : β}

/-- As long as no `int` overflows the table is as it should be. -/
theorem Registered.represents (h : Registered js n) (hn : n + 1 < 2 ^ 31) :
    Represents js (toInt32 (n + 1)) := by
  have hnumber : ∀ j ∈ js, j.jobNumber = j.serial + 1 := by
    intro j hj
    have hlt := h.lt j hj
    rw [h.number j hj, toInt32_succ (by omega)]
  have hnums : js.map Job.jobNumber = (js.map Job.serial).map fun x : ℕ => (x : ℤ) + 1 := by
    rw [List.map_map]
    exact List.map_congr_left hnumber
  refine ⟨h.toKeptSlots, ?_, ?_⟩
  · rw [hnums]
    refine List.Pairwise.map _ (fun x y hxy heq => ?_) h.nodup
    exact hxy (by omega)
  · intro j hj
    have hlt := h.lt j hj
    rw [hnumber j hj, toInt32_succ hn]
    omega

theorem KeptSlots.update {f : Job → Option (Job × β)} (h : KeptSlots js)
    (hf : ∀ j j' b, f j = some (j', b) → j.Kept → j'.Kept)
    (hu : updateFirst f js = some (js', b)) : KeptSlots js' := by
  obtain ⟨pre, j, j', post, rfl, rfl, hj⟩ := exists_of_updateFirst hu
  refine ⟨by simpa using h.count, ?_⟩
  have hkept := h.kept
  rw [List.forall_mem_append, List.forall_mem_cons] at hkept ⊢
  exact ⟨hkept.1, hf j j' b hj hkept.2.1, hkept.2.2⟩

/-- One job is changed in place. -/
theorem Registered.update {f : Job → Option (Job × β)} (h : Registered js n)
    (hf : ∀ j j' b, f j = some (j', b) → j.Kept → j'.Kept)
    (hnum : ∀ j j' b, f j = some (j', b) → j'.serial = j.serial ∧ j'.jobNumber = j.jobNumber)
    (hu : updateFirst f js = some (js', b)) : Registered js' n := by
  have hkept := h.toKeptSlots.update hf hu
  have hserials := map_updateFirst (fun j j' b hj => (hnum j j' b hj).1) hu
  obtain ⟨pre, j, j', post, rfl, rfl, hj⟩ := exists_of_updateFirst hu
  obtain ⟨hserial, hnumber⟩ := hnum j j' b hj
  refine ⟨hkept, hserials ▸ h.nodup, ?_, ?_⟩
  · have hlt := h.lt
    rw [List.forall_mem_append, List.forall_mem_cons] at hlt ⊢
    exact ⟨hlt.1, hserial ▸ hlt.2.1, hlt.2.2⟩
  · have hall := h.number
    rw [List.forall_mem_append, List.forall_mem_cons] at hall ⊢
    refine ⟨hall.1, ?_, hall.2.2⟩
    rw [hnumber, hserial]
    exact hall.2.1

/-- A removal. -/
theorem Registered.swapRemove {i : ℕ} {j : Job} (h : Registered js n) (hi : js[i]? = some j) :
    Registered (swapRemove i js) n := by
  have hp := perm_swapRemove hi
  have hsub : ∀ k ∈ Lib.swapRemove i js, k ∈ js := fun k hk => hp.mem_iff.2 (.tail _ hk)
  refine ⟨⟨?_, fun k hk => h.kept k (hsub k hk)⟩, ?_, fun k hk => h.lt k (hsub k hk),
    fun k hk => h.number k (hsub k hk)⟩
  · have hlen := hp.length_eq
    rw [List.length_cons] at hlen
    have := h.count
    omega
  · exact (List.nodup_cons.1 ((hp.map Job.serial).nodup_iff.1 h.nodup)).2

/-- A new job. -/
theorem Registered.snoc {j : Job} (h : Registered js n) (hroom : js.length < maxJobs)
    (hj : j.Kept) (hserial : j.serial = n) (hnum : j.jobNumber = toInt32 (n + 1)) :
    Registered (js ++ [j]) (n + 1) := by
  refine ⟨⟨by rw [List.length_append]; exact hroom, ?_⟩, ?_, ?_, ?_⟩
  · exact List.forall_mem_append.2 ⟨h.kept, List.forall_mem_singleton.2 hj⟩
  · rw [List.map_append, List.map_singleton, List.nodup_append]
    refine ⟨h.nodup, by simp, fun x hx y hy => ?_⟩
    obtain ⟨k, hk, rfl⟩ := List.mem_map.1 hx
    obtain rfl := List.mem_singleton.1 hy
    exact Nat.ne_of_lt (hserial ▸ h.lt k hk)
  · refine List.forall_mem_append.2 ⟨fun k hk => Nat.lt_succ_of_lt (h.lt k hk), ?_⟩
    exact List.forall_mem_singleton.2 (hserial ▸ Nat.lt_succ_self n)
  · refine List.forall_mem_append.2 ⟨h.number, List.forall_mem_singleton.2 ?_⟩
    rw [hnum, hserial]

end

theorem Job.kept_new {procs : List (ℕ × Str)} (h : procs ≠ []) (serial : ℕ) (n : ℤ)
    (state : ProcState) (pgid : ℕ) (cmdline : Str) :
    (Job.new serial n state pgid procs cmdline).Kept := by
  refine ⟨Job.wf_new h serial n state pgid cmdline, ?_⟩
  simp only [Job.new, List.length_map, List.length_take]
  exact Nat.min_le_left _ _

theorem Job.kept_of_matchReport {pid : ℕ} {st : Status} (j j' : Job) (n : Option Notification)
    (h : j.matchReport pid st = some (j', n)) (hj : j.Kept) : j'.Kept := by
  refine ⟨Job.wf_of_matchReport h hj.wf, ?_⟩
  have hlen := congrArg List.length (Job.pids_of_matchReport h)
  rw [Job.pids, Job.pids, List.length_map, List.length_map] at hlen
  exact hlen ▸ hj.procs_le

theorem Job.kept_of_mark {state : ProcState} {n : ℤ} (j j' : Job) (u : Unit)
    (h : j.mark state n = some (j', u)) (hj : j.Kept) : j'.Kept := by
  have hpids := congrArg List.length (Job.pids_of_mark h)
  rw [Job.pids, Job.pids, List.length_map, List.length_map] at hpids
  exact ⟨Job.wf_of_mark h hj.wf, hpids ▸ hj.procs_le⟩

theorem Registered.report {js js' : List Job} {n pid : ℕ} {st : Status} {b : Option Notification}
    (h : Registered js n) (hu : updateFirst (Job.matchReport pid st) js = some (js', b)) :
    Registered js' n :=
  h.update Job.kept_of_matchReport
    (fun j j' b hj => ⟨Job.serial_of_matchReport j j' b hj, Job.jobNumber_of_matchReport j j' b hj⟩)
    hu

theorem KeptSlots.deliver {t : JobTable} (h : KeptSlots t.jobs) (pid : ℕ) (st : Status) :
    KeptSlots (t.deliver pid st).jobs := by
  rcases hu : updateFirst (Job.matchReport pid st) t.jobs with _ | ⟨jobs, n⟩
  · rwa [JobTable.deliver_of_none hu]
  · rw [JobTable.deliver_of_some hu]
    exact h.update Job.kept_of_matchReport hu

/-! ## The steps -/

/-- What every run keeps. -/
structure TableState.Inv (s : TableState) : Prop where
  registered : Registered s.tracked s.table.registered
  next : s.table.nextJobNumber = toInt32 (s.table.registered + 1)
  /-- the slot to be removed is one of the table -/
  matched : ∀ n i, s.drain = .matched n i → i < s.table.jobs.length

namespace TableState.Inv

variable {s s' : TableState} {f : JobTable → JobTable}

theorem init : TableState.init.Inv :=
  ⟨⟨⟨Nat.zero_le _, nofun⟩, .nil, nofun, nofun⟩, (toInt32_succ (by decide)).symm, nofun⟩

/-- A call of a function that keeps the table. -/
theorem call (h : s.Inv) (hs : s.call f = some s')
    (hf : Registered s.table.jobs s.table.registered →
      Registered (f s.table).jobs (f s.table).registered ∧
        (f s.table).nextJobNumber = toInt32 ((f s.table).registered + 1)) : s'.Inv := by
  rw [TableState.call] at hs
  split at hs
  case isFalse => cases hs
  case isTrue hd =>
    cases hs
    have hr := h.registered
    rw [tracked, hd] at hr
    obtain ⟨hr', hnext⟩ := hf hr
    refine ⟨?_, hnext, fun n i hm => ?_⟩
    · rw [tracked, hd]
      exact hr'
    · rw [show s.drain = .matched n i from hm] at hd
      cases hd

theorem registerJob (h : s.Inv) {state : ProcState} {message : Job → Message} {pgid : ℕ}
    {procs : List (ℕ × Str)} {cmdline : Str} (hp : procs ≠ [])
    (hs : s.call (.registerJob state message pgid procs cmdline) = some s') : s'.Inv := by
  refine h.call hs fun hr => ?_
  rw [JobTable.registerJob]
  split
  case isTrue => exact ⟨hr, h.next⟩
  case isFalse hroom =>
    refine ⟨hr.snoc (Nat.lt_of_not_le hroom) (Job.kept_new hp ..) rfl h.next, ?_⟩
    simp only [h.next, toInt32_add_one]
    push_cast
    rfl

theorem markJob (h : s.Inv) {state : ProcState} {n : ℤ}
    (hs : s.call (.markJob state n) = some s') : s'.Inv := by
  refine h.call hs fun hr => ?_
  rw [JobTable.markJob]
  split
  · rename_i hu
    refine ⟨hr.update Job.kept_of_mark ?_ hu, h.next⟩
    intro j j' b hj
    rw [(Job.mark_cases hj).2]
    exact ⟨rfl, rfl⟩
  · exact ⟨hr, h.next⟩

theorem removeJobByNumber (h : s.Inv) {n : ℤ}
    (hs : s.call (.removeJobByNumber n) = some s') : s'.Inv := by
  refine h.call hs fun hr => ?_
  rw [JobTable.removeJobByNumber]
  split
  · rename_i i hi
    obtain ⟨hlt, -⟩ := List.findIdx?_eq_some_iff_getElem.1 hi
    exact ⟨hr.swapRemove (List.getElem?_eq_getElem hlt), h.next⟩
  · exact ⟨hr, h.next⟩

/-- A report changes one of the slots that count, or none of them. -/
theorem deliver (h : s.Inv) (pid : ℕ) (st : Status) :
    TableState.Inv { s with table := s.table.deliver pid st } := by
  have hlen : (s.table.deliver pid st).jobs.length = s.table.jobs.length := by
    have := congrArg List.length (JobTable.deliver_serials s.table pid st)
    rwa [List.length_map, List.length_map] at this
  have hr := h.registered
  refine ⟨?_, ?_, fun n i hm => hlen ▸ h.matched n i hm⟩
  · rw [JobTable.deliver_registered]
    by_cases hd : s.drain = .copied
    · rw [tracked_of_copied hd] at hr
      rw [tracked_of_copied (s := ⟨s.table.deliver pid st, s.drain⟩) hd]
      rcases hu : updateFirst (Job.matchReport pid st) s.table.jobs with _ | ⟨jobs, n⟩
      · rwa [JobTable.deliver_of_none hu]
      rw [JobTable.deliver_of_some hu]
      rcases updateFirst_dropLast hu with hsame | hchanged
      · exact hsame ▸ hr
      · exact hr.report hchanged
    · rw [tracked_of_ne hd] at hr
      rw [tracked_of_ne (s := ⟨s.table.deliver pid st, s.drain⟩) hd]
      rcases hu : updateFirst (Job.matchReport pid st) s.table.jobs with _ | ⟨jobs, n⟩
      · rwa [JobTable.deliver_of_none hu]
      rw [JobTable.deliver_of_some hu]
      exact hr.report hu
  · rw [JobTable.deliver_nextJobNumber, JobTable.deliver_registered]
    exact h.next

/-- A step of the drain. -/
theorem drainStep (h : s.Inv) :
    TableState.Inv ⟨(s.table.drainStep s.drain).1, (s.table.drainStep s.drain).2⟩ := by
  have hr := h.registered
  rcases s with ⟨t, d⟩
  cases d with
  | idle => exact ⟨hr, h.next, by rintro _ _ ⟨⟩⟩
  | reading =>
    simp only [JobTable.drainStep]
    split
    · exact ⟨hr, h.next, by rintro _ _ ⟨⟩⟩
    · exact ⟨hr, h.next, by rintro _ _ ⟨⟩⟩
  | scanning n i =>
    simp only [JobTable.drainStep]
    split
    · exact ⟨hr, h.next, by rintro _ _ ⟨⟩⟩
    · rename_i j hj
      split
      · refine ⟨hr, h.next, ?_⟩
        rintro _ _ ⟨⟩
        exact (List.getElem?_eq_some_iff.1 hj).1
      · exact ⟨hr, h.next, by rintro _ _ ⟨⟩⟩
  | matched n i =>
    -- from here on the removed job is not among the slots that count
    have hlt := h.matched n i rfl
    exact ⟨Registered.swapRemove hr (List.getElem?_eq_getElem hlt), h.next, by rintro _ _ ⟨⟩⟩
  | copied => exact ⟨hr, h.next, by rintro _ _ ⟨⟩⟩

theorem step {a : TableAct} (h : s.Inv) (hs : s.step a = some s') : s'.Inv := by
  cases a with
  | registerBackground pgid procs cmdline =>
    rw [TableState.step] at hs
    split at hs
    · exact h.registerJob ‹_› hs
    · cases hs
  | registerStopped pgid procs cmdline =>
    rw [TableState.step] at hs
    split at hs
    · exact h.registerJob ‹_› hs
    · cases hs
  | deliver pid st =>
    cases hs
    exact h.deliver pid st
  | markRunning n => exact h.markJob hs
  | markStopped n => exact h.markJob hs
  | remove n => exact h.removeJobByNumber hs
  | drain =>
    cases hs
    exact h.drainStep

theorem reachable (h : Reachable TableState.step .init s) : s.Inv :=
  h.invariant init fun _ _ _ hi _ hs => hi.step hs

end TableState.Inv

/-! ## Whole runs -/

/-- The table as it should be: the slots that count always, and all slots but
    between the two writes of a removal. -/
def TableState.WellRepresented (s : TableState) : Prop :=
  Represents s.tracked s.table.nextJobNumber ∧
    (s.drain ≠ .copied → Represents s.table.jobs s.table.nextJobNumber)

/-- The action is a registration. -/
def TableAct.registers : TableAct → Bool
  | .registerBackground _ _ _ | .registerStopped _ _ _ => true
  | .deliver _ _ | .markRunning _ | .markStopped _ | .remove _ | .drain => false

/-- A registration does not find room after 2 ^ 31 - 2 others have. -/
def TableState.NumbersLeft (s : TableState) (a : TableAct) : Prop :=
  a.registers → s.table.jobs.length < maxJobs → s.table.registered + 2 < 2 ^ 31

instance (s : TableState) (a : TableAct) : Decidable (s.NumbersLeft a) :=
  inferInstanceAs (Decidable (_ → _ → _))

namespace TableState

variable {s s' : TableState} {a : TableAct}

theorem eq_of_call {f : JobTable → JobTable} (hs : s.call f = some s') :
    s' = ⟨f s.table, .idle⟩ := by
  rw [call] at hs
  split at hs
  case isFalse => cases hs
  case isTrue hd =>
    cases hs
    rw [hd]

/-- What a registration does to the count of the registrations. -/
theorem registered_registerJob {state : ProcState} {message : Job → Message} {pgid : ℕ}
    {procs : List (ℕ × Str)} {cmdline : Str}
    (hs : s.call (.registerJob state message pgid procs cmdline) = some s') :
    s'.table.registered = s.table.registered ∨
      s.table.jobs.length < maxJobs ∧ s'.table.registered = s.table.registered + 1 := by
  rw [eq_of_call hs, JobTable.registerJob]
  split
  case isTrue => exact .inl rfl
  case isFalse hroom => exact .inr ⟨Nat.lt_of_not_le hroom, rfl⟩

/-- Only a registration that finds room is counted. -/
theorem registered_step (hs : s.step a = some s') :
    s'.table.registered = s.table.registered ∨
      a.registers ∧ s.table.jobs.length < maxJobs ∧
        s'.table.registered = s.table.registered + 1 := by
  cases a with
  | registerBackground pgid procs cmdline =>
    rw [step] at hs
    split at hs
    case isTrue => exact (registered_registerJob hs).imp_right (⟨rfl, ·⟩)
    case isFalse => cases hs
  | registerStopped pgid procs cmdline =>
    rw [step] at hs
    split at hs
    case isTrue => exact (registered_registerJob hs).imp_right (⟨rfl, ·⟩)
    case isFalse => cases hs
  | deliver pid st =>
    cases hs
    exact .inl (JobTable.deliver_registered ..)
  | markRunning n | markStopped n =>
    left
    rw [eq_of_call hs]
    simp only [JobTable.markJobRunning, JobTable.markJobStopped, JobTable.markJob]
    split <;> rfl
  | remove n =>
    left
    rw [eq_of_call hs, JobTable.removeJobByNumber]
    split <;> rfl
  | drain =>
    cases hs
    left
    cases s.drain with
    | idle | matched n i | copied => rfl
    | reading =>
      rw [JobTable.drainStep]
      split <;> rfl
    | scanning n i =>
      rw [JobTable.drainStep]
      split
      · rfl
      · split <;> rfl

namespace Inv

/-- As long as no `int` has overflowed the table is as it should be. -/
theorem wellRepresented (h : s.Inv) (hn : s.table.registered + 1 < 2 ^ 31) :
    s.WellRepresented := by
  have hr := h.registered.represents hn
  rw [← h.next] at hr
  exact ⟨hr, fun hd => tracked_of_ne hd ▸ hr⟩

/-- **The job that gets the largest `int`** has a number that is not smaller
    than the next one. -/
theorem overflows (h : s.Inv) {state : ProcState} {message : Job → Message} {pgid : ℕ}
    {procs : List (ℕ × Str)} {cmdline : Str} (hroom : s.table.jobs.length < maxJobs)
    (hn : s.table.registered + 2 = 2 ^ 31)
    (hs : s.call (.registerJob state message pgid procs cmdline) = some s') :
    ¬s'.WellRepresented := by
  have hnext : s.table.nextJobNumber = 2 ^ 31 - 1 := by
    rw [h.next, toInt32_succ (by omega)]
    omega
  have hover : toInt32 (2 ^ 31 - 1 + 1) = -2 ^ 31 := by decide
  rw [eq_of_call hs, JobTable.registerJob, if_neg (Nat.not_le_of_lt hroom)]
  rintro ⟨hrep, -⟩
  have hnumber := (hrep.number (Job.new s.table.registered s.table.nextJobNumber state pgid procs
    cmdline) (List.mem_append_right _ (List.mem_singleton_self _))).2
  simp only [Job.new, hnext, hover] at hnumber
  omega

theorem fails (h : s.Inv) (hlt : s.table.registered + 1 < 2 ^ 31) (hG : ¬s.NumbersLeft a)
    (hs : s.step a = some s') : ¬s'.WellRepresented := by
  rw [NumbersLeft, Classical.not_imp, Classical.not_imp] at hG
  obtain ⟨ha, hroom, hn⟩ := hG
  have hn : s.table.registered + 2 = 2 ^ 31 := by omega
  cases a with
  | registerBackground pgid procs cmdline =>
    rw [TableState.step] at hs
    split at hs
    case isTrue => exact h.overflows hroom hn hs
    case isFalse => cases hs
  | registerStopped pgid procs cmdline =>
    rw [TableState.step] at hs
    split at hs
    case isTrue => exact h.overflows hroom hn hs
    case isFalse => cases hs
  | deliver | markRunning | markStopped | remove | drain => cases ha

end Inv

end TableState

/-- **The table is as it should be in every state of a run** iff no registration
    finds room after 2 ^ 31 - 2 others have found it. -/
theorem table_represents_iff {as : List TableAct} (hr : (run TableState.step as .init).isSome) :
    Always TableState.step TableState.WellRepresented as .init ↔
      Guarded TableState.step TableState.NumbersLeft as .init := by
  refine always_iff_guarded (I := fun s => s.Inv ∧ s.table.registered + 1 < 2 ^ 31)
    (fun s h => h.1.wellRepresented h.2) ?_ (fun s a s' h hG hs => h.1.fails h.2 hG hs)
    ⟨TableState.Inv.init, by decide⟩ hr
  intro s a s' h hG hs
  refine ⟨h.1.step hs, ?_⟩
  rcases TableState.registered_step hs with heq | ⟨ha, hroom, heq⟩
  · rw [heq]
    exact h.2
  · have := hG ha hroom
    omega

/-- Two jobs; the first one ends twice and is removed while the second one is
    reported. -/
def removal : List TableAct :=
  [.registerBackground 5 [(5, []), (6, [])] [], .registerStopped 7 [(7, [])] [], .deliver 5 .exited,
    .deliver 6 .signaled, .deliver 6 .exited, .drain, .drain, .drain, .drain, .deliver 7 .continued,
    .drain, .drain]

theorem table_represents_iff_removal :
    (run TableState.step removal .init).isSome ∧
      Always TableState.step TableState.WellRepresented removal .init :=
  ⟨by decide, (table_represents_iff (by decide)).2 (by decide)⟩

/-- A job is registered, ends and is drained. -/
def oneJob : List TableAct :=
  [.registerBackground 5 [(5, [])] [], .deliver 5 .exited, .drain, .drain, .drain, .drain, .drain,
    .drain]

/-- After that the table is empty again, and the next number has gone up. -/
theorem run_oneJob (k : ℕ) (n : ℤ) (printed : List Message) :
    ∃ printed', run TableState.step oneJob ⟨⟨[], k, n, [], printed⟩, .idle⟩ =
      some ⟨⟨[], k + 1, toInt32 (n + 1), [], printed'⟩, .idle⟩ :=
  ⟨_, rfl⟩

/-- Any number of jobs, one after the other. -/
theorem reachable_empty (k : ℕ) :
    ∃ printed, Reachable TableState.step .init
      ⟨⟨[], k, toInt32 (k + 1), [], printed⟩, .idle⟩ := by
  induction k with
  | zero => exact ⟨[], .start⟩
  | succ k ih =>
    obtain ⟨printed, hreach⟩ := ih
    obtain ⟨printed', hrun⟩ := run_oneJob k (toInt32 (k + 1)) printed
    rw [toInt32_add_one] at hrun
    exact ⟨printed', by simpa using hreach.run hrun⟩

/-- **The numbers overflow**: after 2 ^ 31 - 2 jobs that have come and gone, the
    next one gets the number 2 ^ 31 - 1, and the next number is -2 ^ 31. -/
theorem job_number_overflows :
    ∃ s, Reachable TableState.step .init s ∧ s.table.jobs.map Job.jobNumber = [2 ^ 31 - 1] ∧
      s.table.nextJobNumber = -2 ^ 31 ∧ ¬s.WellRepresented := by
  obtain ⟨k, hk⟩ : ∃ k : ℕ, k + 2 = 2 ^ 31 := ⟨2 ^ 31 - 2, by omega⟩
  obtain ⟨printed, hreach⟩ := reachable_empty k
  have hnext : toInt32 (k + 1) = 2 ^ 31 - 1 := by
    rw [toInt32_succ (by omega)]
    omega
  have hover : toInt32 (2 ^ 31 - 1 + 1) = -2 ^ 31 := by decide
  rw [hnext] at hreach
  refine ⟨_, .next (a := .registerBackground 5 [(5, [])] []) hreach trivial rfl, rfl, hover, ?_⟩
  exact (TableState.Inv.reachable hreach).overflows (Nat.zero_lt_succ _) hk rfl

/-! ## The jobs and the children -/

/-- **The system of the jobs and the children is one of the runs.** -/
theorem JobSystem.reachable_table {s : JobSystem} (h : Reachable JobSystem.step .init s) :
    Reachable TableState.step .init s.toTableState := by
  induction h with
  | start => exact .start
  | @next s s' a _ _ hs ih =>
    cases a with
    | fork pid | reap pid =>
      rw [JobSystem.step] at hs
      split at hs
      case isTrue =>
        cases hs
        exact ih
      case isFalse => cases hs
    | table b =>
      rw [JobSystem.step] at hs
      split at hs
      case isTrue =>
        obtain ⟨t, ht, rfl⟩ := Option.map_eq_some_iff.1 hs
        exact .next ih trivial ht
      case isFalse => cases hs

end CShell
