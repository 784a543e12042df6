/-
  C-Shell formalization — completion of background jobs (`background.c`).

  The job table with the children of the shell.  The shell's own code calls the
  functions of the table one after another; reports of `waitpid` are delivered
  to the handler at any time, also between any two steps of
  `drain_background_notifications`.  A report concerns a child that was forked
  and is not reaped yet, and the shell forks nothing while it drains.

  * `JobSystem.Inv.drainStep`: what a step of the drain does to the jobs;
  * `JobSystem.Inv.drains`: from any state the steps of the drain alone lead to
    its end, with exactly the finished jobs removed and announced;
  * `jobs_completed_once`: in every reachable state a job has an unread
    notification, exactly one, iff none of its processes remains; the drain
    removes these jobs and no others; and no job is announced twice.
-/
import CShell.Lib.Steps
import CShell.Shell.Reports

namespace CShell

open Lib

/-! ## The system -/

/-- The table, the drain and the children of the shell. -/
structure JobSystem extends TableState where
  /-- the children of the shell no `waitpid` has reaped -/
  children : List ℕ
  deriving DecidableEq, Repr

/-- The start of the shell. -/
def JobSystem.init : JobSystem := ⟨.init, []⟩

/-- What happens to the children, and what to the table. -/
inductive JobAct where
  | fork (pid : ℕ)
  /-- a foreground wait reaps a child -/
  | reap (pid : ℕ)
  | table (a : TableAct)
  deriving DecidableEq, Repr

/-- The pids of a registration: at least one, all distinct, and none in the
    table or in an unread notification. -/
def JobTable.Fresh (t : JobTable) (procs : List (ℕ × Str)) : Prop :=
  procs ≠ [] ∧ (procs.map Prod.fst).Nodup ∧
    ∀ p ∈ procs.map Prod.fst, p ∉ t.jobs.flatMap Job.pids ∧ p ∉ t.pipe.map Notification.pid

instance (t : JobTable) (procs : List (ℕ × Str)) : Decidable (t.Fresh procs) :=
  inferInstanceAs (Decidable (_ ∧ _ ∧ _))

/-- The pids of a registration are new, and a report is about a child. -/
def JobSystem.Allows (s : JobSystem) : TableAct → Prop
  | .registerBackground _ procs _ | .registerStopped _ procs _ => s.table.Fresh procs
  | .deliver pid _ => pid ∈ s.children
  | .markRunning _ | .markStopped _ | .remove _ | .drain => True

instance (s : JobSystem) (a : TableAct) : Decidable (s.Allows a) :=
  match a with
  | .registerBackground _ procs _ | .registerStopped _ procs _ =>
    inferInstanceAs (Decidable (s.table.Fresh procs))
  | .deliver pid _ => inferInstanceAs (Decidable (pid ∈ s.children))
  | .markRunning _ | .markStopped _ | .remove _ | .drain => isTrue trivial

/-- The children after a step of the table: a report reaps a child that has
    terminated. -/
def JobSystem.reaping (s : JobSystem) : TableAct → List ℕ
  | .deliver pid st => if st.terminated then s.children.filter (· ≠ pid) else s.children
  | _ => s.children

/-- One step; the shell forks nothing and waits for nothing while it drains. -/
def JobSystem.step (s : JobSystem) : JobAct → Option JobSystem
  | .fork pid =>
    if s.drain = .idle ∧ pid ∉ s.children then some { s with children := pid :: s.children }
    else none
  | .reap pid =>
    if s.drain = .idle then some { s with children := s.children.filter (· ≠ pid) } else none
  | .table a =>
    if s.Allows a then (s.toTableState.step a).map (⟨·, s.reaping a⟩) else none

/-- The state after a report. -/
def JobSystem.report (pid : ℕ) (st : Status) (s : JobSystem) : JobSystem :=
  ⟨⟨s.table.deliver pid st, s.drain⟩, s.reaping (.deliver pid st)⟩

/-- The state after a step of the drain. -/
def JobSystem.drained (s : JobSystem) : JobSystem :=
  ⟨⟨(s.table.drainStep s.drain).1, (s.table.drainStep s.drain).2⟩, s.children⟩

/-- `s'` is reached from `s` by steps of the drain alone. -/
def JobSystem.DrainsTo (s s' : JobSystem) : Prop :=
  Reach JobSystem.step (fun _ a => a = .table .drain) s s'

/-- The notification the drain has read and not dealt with yet. -/
def Drain.inHand : Drain → List Notification
  | scanning n _ | matched n _ => [n]
  | idle | reading | copied => []

/-- The pids of the notifications not dealt with, in hand or in the pipe. -/
def JobSystem.unread (s : JobSystem) : List ℕ :=
  (s.drain.inHand ++ s.table.pipe).map Notification.pid

/-- The serial of the job a line announces as completed. -/
def Message.announces : Message → Option ℕ
  | completed serial _ _ _ => some serial
  | tableFull | started _ _ | stopped _ _ => none

/-- The serials of the jobs announced so far. -/
def JobTable.announced (t : JobTable) : List ℕ := t.printed.filterMap Message.announces

/-! ## The table and its unread notifications -/

/-- The jobs of a table fit the pids of the unread notifications. -/
structure Sound (js : List Job) (unread : List ℕ) : Prop where
  wf : ∀ j ∈ js, j.WF
  pids : (js.flatMap Job.pids).Nodup
  count : ∀ j ∈ js, ∀ l, j.leader = some l → unread.count l = if j.remaining = 0 then 1 else 0

variable {js js' pre post : List Job} {j j' : Job} {u v : List ℕ} {l : ℕ}

theorem Sound.nil : Sound [] u := ⟨by simp, by simp, by simp⟩

theorem Sound.perm (h : Sound js u) (hp : js.Perm js') : Sound js' u where
  wf j hj := h.wf j (hp.mem_iff.2 hj)
  pids := (hp.flatMap_right Job.pids).nodup_iff.1 h.pids
  count j hj := h.count j (hp.mem_iff.2 hj)

theorem Sound.tail (h : Sound (j :: js) u) : Sound js u where
  wf k hk := h.wf k (.tail _ hk)
  pids := (List.nodup_append.1 h.pids).2.1
  count k hk := h.count k (.tail _ hk)

/-- Jobs beside `j` have none of its pids. -/
theorem Sound.not_mem_pids (h : Sound (j :: js) u) {k : Job} (hk : k ∈ js) {p : ℕ}
    (hp : p ∈ k.pids) : p ∉ j.pids := fun hj =>
  (List.nodup_append.1 h.pids).2.2 p hj p (List.mem_flatMap.2 ⟨k, hk, hp⟩) rfl

/-- One job changes but keeps its pids, and notifications about it are
    written. -/
theorem Sound.replace (h : Sound (pre ++ j :: post) u) (wf : j'.WF) (hpids : j'.pids = j.pids)
    (hv : ∀ x ∈ v, x ∈ j.pids)
    (hc : ∀ l, j.leader = some l → (u ++ v).count l = if j'.remaining = 0 then 1 else 0) :
    Sound (pre ++ j' :: post) (u ++ v) := by
  have h₁ := h.perm List.perm_middle
  refine Sound.perm ?_ List.perm_middle.symm
  refine ⟨List.forall_mem_cons.2 ⟨wf, h₁.tail.wf⟩, ?_, List.forall_mem_cons.2 ⟨?_, ?_⟩⟩
  · rw [List.flatMap_cons, hpids, ← List.flatMap_cons]
    exact h₁.pids
  · intro l hl
    rw [Job.leader_eq, hpids, ← Job.leader_eq] at hl
    exact hc l hl
  · intro k hk l hl
    have hnot : v.count l = 0 :=
      List.count_eq_zero.2 fun hlv => h₁.not_mem_pids hk (Job.leader_mem hl) (hv l hlv)
    rw [List.count_append, hnot, Nat.add_zero, h₁.tail.count k hk l hl]

/-- A new job, none of whose processes has exited. -/
theorem Sound.snoc (h : Sound js u) (wf : j.WF) (hr : j.remaining ≠ 0) (hn : j.pids.Nodup)
    (hjs : ∀ p ∈ j.pids, p ∉ js.flatMap Job.pids) (hu : ∀ p ∈ j.pids, p ∉ u) :
    Sound (js ++ [j]) u := by
  refine Sound.perm ?_ (List.perm_append_singleton _ _).symm
  refine ⟨List.forall_mem_cons.2 ⟨wf, h.wf⟩, ?_, List.forall_mem_cons.2 ⟨?_, h.count⟩⟩
  · rw [List.flatMap_cons, List.nodup_append]
    exact ⟨hn, h.pids, fun p hp q hq hpq => hjs p hp (hpq ▸ hq)⟩
  · intro l hl
    rw [if_neg hr, List.count_eq_zero]
    exact hu l (Job.leader_mem hl)

/-- A notification about none of the jobs may be dropped. -/
theorem Sound.consume (h : Sound js (l :: u)) (hl : ∀ j ∈ js, j.leader ≠ some l) :
    Sound js u where
  wf := h.wf
  pids := h.pids
  count j hj k hk := by
    have hne : l ≠ k := fun hlk => hl j hj (hlk ▸ hk)
    rw [← h.count j hj k hk, List.count_cons_of_ne hne]

/-- A job with an unread notification has no process left. -/
theorem Sound.remaining_eq_zero (h : Sound js u) (hj : j ∈ js) (hl : j.leader = some l)
    (hu : l ∈ u) : j.remaining = 0 := by
  by_contra hr
  have hc := h.count j hj l hl
  rw [if_neg hr, List.count_eq_zero] at hc
  exact hc hu

theorem Sound.leader_ne_of_cons (h : Sound (j :: js) u) (hl : j.leader = some l) :
    ∀ k ∈ js, k.leader ≠ some l := fun _ hk hkl =>
  h.not_mem_pids hk (Job.leader_mem hkl) (Job.leader_mem hl)

/-- **A report keeps the table sound**: the job whose last process ends gets
    its notification. -/
theorem Sound.report {pid : ℕ} {st : Status} {n : Option Notification} (h : Sound js u)
    (hr : updateFirst (Job.matchReport pid st) js = some (js', n)) :
    Sound js' (u ++ n.toList.map Notification.pid) := by
  obtain ⟨pre, j, j', post, rfl, rfl, hj⟩ := exists_of_updateFirst hr
  have hmem : j ∈ pre ++ j :: post := by simp
  have wf := h.wf j hmem
  have wf' := Job.wf_of_matchReport hj wf
  obtain ⟨front, p, rest, hp, hex, -, hj', hn⟩ := Job.matchReport_cases hj
  have hpos : 0 < j.remaining := by
    have hne : j.remaining ≠ 0 := fun h0 => by
      have := wf.remaining_eq_zero.1 h0 p (by simp [hp])
      simp [hex] at this
    have := wf.remaining_nonneg
    omega
  refine h.replace wf' (Job.pids_of_matchReport hj) ?_ ?_
  · intro x hx
    rw [hn] at hx
    split at hx
    · obtain ⟨m, hm, rfl⟩ := List.mem_map.1 hx
      rw [Option.mem_toList, Option.map_eq_some_iff] at hm
      obtain ⟨l, hl, rfl⟩ := hm
      exact Job.leader_mem hl
    · cases hx
  · intro l hl
    rw [List.count_append, h.count j hmem l hl, if_neg (by omega), Nat.zero_add, hn]
    by_cases h0 : j'.remaining = 0
    · have ht : st.terminated := by
        by_contra ht
        rw [hj'] at h0
        simp only [ht, Bool.false_eq_true, if_false] at h0
        omega
      simp [ht, h0, hl]
    · simp [h0]

/-! ## The invariant -/

/-- What the drain knows about the slots. -/
def JobSystem.AtDrain (s : JobSystem) : Prop :=
  match s.drain with
  | .idle | .reading => True
  | .scanning n i => ∀ k < i, (s.table.jobs.map Job.leader)[k]? ≠ some (some n.pid)
  | .matched n i => (s.table.jobs.map Job.leader)[i]? = some (some n.pid)
  -- a report is never for the stale last slot alone
  | .copied => ∃ js j, s.table.jobs = js ++ [j] ∧
      ∀ p ∈ s.children, j.Has p → ∃ k ∈ js, k.Has p

/-- The jobs in the table and those announced, by their serials. -/
structure JobSystem.Numbered (s : JobSystem) : Prop where
  nodup : (s.tracked.map Job.serial).Nodup
  lt : ∀ x ∈ s.tracked.map Job.serial, x < s.table.registered
  announced_nodup : s.table.announced.Nodup
  announced_lt : ∀ x ∈ s.table.announced, x < s.table.registered
  /-- an announced job still in the table is the one being removed -/
  matched : ∀ x ∈ s.tracked.map Job.serial, x ∈ s.table.announced →
    ∃ n i, s.drain = .matched n i ∧ (s.table.jobs.map Job.serial)[i]? = some x
  /-- the job being removed is announced -/
  announced : ∀ n i, s.drain = .matched n i → ∀ x,
    (s.table.jobs.map Job.serial)[i]? = some x → x ∈ s.table.announced

/-- The invariant of every run. -/
structure JobSystem.Inv (s : JobSystem) : Prop where
  sound : Sound s.tracked s.unread
  atDrain : s.AtDrain
  numbered : s.Numbered

theorem TableState.tracked_of_ne {s : TableState} (h : s.drain ≠ .copied) :
    s.tracked = s.table.jobs :=
  JobTable.tracked_of_ne h

theorem TableState.tracked_of_copied {s : TableState} (h : s.drain = .copied) :
    s.tracked = s.table.jobs.dropLast := by
  rw [tracked, h, JobTable.tracked]

/-! ### Reports -/

theorem JobSystem.mem_children_report {s : JobSystem} {pid p : ℕ} {st : Status}
    (h : p ∈ (s.report pid st).children) :
    p ∈ s.children ∧ (st.terminated → p ≠ pid) := by
  simp only [report, reaping] at h
  split at h
  · simpa [*] using h
  · exact ⟨h, fun ht => absurd ht ‹_›⟩

theorem exists_has_of_updateFirst {pid p : ℕ} {st : Status} {n : Option Notification}
    (h : updateFirst (Job.matchReport pid st) js = some (js', n)) (hne : st.terminated → p ≠ pid)
    (hp : ∃ k ∈ js, k.Has p) : ∃ k ∈ js', k.Has p := by
  obtain ⟨pre, j, j', post, rfl, rfl, hj⟩ := exists_of_updateFirst h
  obtain ⟨k, hk, hkp⟩ := hp
  rw [List.mem_append, List.mem_cons] at hk
  rcases hk with hk | rfl | hk
  · exact ⟨k, by simp [hk], hkp⟩
  · exact ⟨j', by simp, Job.has_of_matchReport hj hne hkp⟩
  · exact ⟨k, by simp [hk], hkp⟩

/-- **A report reaches the tracked jobs**, wherever the drain is. -/
theorem JobSystem.report_cases {s : JobSystem} {pid : ℕ} {st : Status} (h : s.AtDrain)
    (hp : pid ∈ s.children) :
    ((s.report pid st).table = s.table ∧ (s.report pid st).AtDrain) ∨
    ∃ js n, updateFirst (Job.matchReport pid st) s.tracked = some (js, n) ∧
      (s.report pid st).tracked = js ∧
      (s.report pid st).table.pipe = s.table.pipe ++ n.toList ∧ (s.report pid st).AtDrain := by
  by_cases hd : s.drain = .copied
  · rw [AtDrain, hd] at h
    obtain ⟨js, j, hjobs, hhas⟩ := h
    rw [TableState.tracked_of_copied hd, hjobs, List.dropLast_concat]
    rcases hu : updateFirst (Job.matchReport pid st) js with _ | ⟨js', n⟩
    · -- no slot that stays has the process, so the stale one has not either
      have hjs := fun k hk => Job.matchReport_eq_none.1 (updateFirst_eq_none.1 hu k hk)
      have hj : ¬j.Has pid := fun hj => by
        obtain ⟨k, hk, hkp⟩ := hhas pid hp hj
        exact hjs k hk hkp
      have hnone : updateFirst (Job.matchReport pid st) s.table.jobs = none := by
        rw [updateFirst_eq_none, hjobs]
        exact List.forall_mem_append.2 ⟨updateFirst_eq_none.1 hu,
          List.forall_mem_singleton.2 (Job.matchReport_eq_none.2 hj)⟩
      have ht : (s.report pid st).table = s.table := JobTable.deliver_of_none hnone
      refine .inl ⟨ht, ?_⟩
      rw [AtDrain, show (s.report pid st).drain = .copied from hd, ht]
      exact ⟨js, j, hjobs, fun p hp' => hhas p (mem_children_report hp').1⟩
    · have hsome := updateFirst_append (m := [j]) hu
      rw [← hjobs] at hsome
      have ht : (s.report pid st).table = _ := JobTable.deliver_of_some hsome
      refine .inr ⟨js', n, rfl, ?_, by rw [ht], ?_⟩
      · rw [TableState.tracked_of_copied (s := (s.report pid st).toTableState) hd, ht, List.dropLast_concat]
      · rw [AtDrain, show (s.report pid st).drain = .copied from hd]
        refine ⟨js', j, by rw [ht], fun p hp' hj => ?_⟩
        obtain ⟨hp', hne⟩ := mem_children_report hp'
        exact exists_has_of_updateFirst hu hne (hhas p hp' hj)
  · have hat : (s.report pid st).AtDrain := by
      rw [AtDrain, show (s.report pid st).drain = s.drain from rfl,
        show (s.report pid st).table = s.table.deliver pid st from rfl]
      rw [AtDrain] at h
      simp only [JobTable.deliver_leaders]
      cases hdr : s.drain with
      | idle | reading => trivial
      | scanning n i | matched n i => rw [hdr] at h; exact h
      | copied => exact absurd hdr hd
    rw [TableState.tracked_of_ne hd]
    rcases hu : updateFirst (Job.matchReport pid st) s.table.jobs with _ | ⟨js, n⟩
    · exact .inl ⟨JobTable.deliver_of_none hu, hat⟩
    · have ht : (s.report pid st).table = _ := JobTable.deliver_of_some hu
      refine .inr ⟨js, n, rfl, ?_, by rw [ht], hat⟩
      rw [TableState.tracked_of_ne (s := (s.report pid st).toTableState) hd, ht]

theorem JobSystem.Inv.report {s : JobSystem} (h : s.Inv) {pid : ℕ} (hp : pid ∈ s.children)
    (st : Status) : (s.report pid st).Inv := by
  have hnum : ((s.report pid st).table.jobs.map Job.serial) = s.table.jobs.map Job.serial :=
    JobTable.deliver_serials _ _ _
  have hann : (s.report pid st).table.announced = s.table.announced := by
    rw [JobTable.announced, show (s.report pid st).table = s.table.deliver pid st from rfl,
      JobTable.deliver_printed, JobTable.announced]
  have hnext : (s.report pid st).table.registered = s.table.registered :=
    JobTable.deliver_registered _ _ _
  have numbered (hm : (s.report pid st).tracked.map Job.serial = s.tracked.map Job.serial) :
      (s.report pid st).Numbered := by
    have hs := h.numbered
    constructor
    · rw [hm]; exact hs.nodup
    · rw [hm, hnext]; exact hs.lt
    · rw [hann]; exact hs.announced_nodup
    · rw [hann, hnext]; exact hs.announced_lt
    · rw [hm, hann, hnum]; exact hs.matched
    · rw [hnum, hann]; exact hs.announced
  rcases report_cases h.atDrain hp with ⟨ht, hat⟩ | ⟨js, n, hu, htr, hpipe, hat⟩
  · have htr : (s.report pid st).tracked = s.tracked := by
      rw [TableState.tracked, TableState.tracked, ht]; rfl
    refine ⟨?_, hat, numbered (by rw [htr])⟩
    rw [htr, unread, ht]
    exact h.sound
  · refine ⟨?_, hat, numbered ?_⟩
    · rw [htr, unread, hpipe, ← List.append_assoc, List.map_append]
      exact h.sound.report hu
    · rw [htr]
      exact map_updateFirst Job.serial_of_matchReport hu

/-! ### Calls between drains -/

/-- The invariant of the table while the drain is not called. -/
structure JobTable.Quiet (t : JobTable) : Prop where
  sound : Sound t.jobs (t.pipe.map Notification.pid)
  nodup : (t.jobs.map Job.serial).Nodup
  lt : ∀ x ∈ t.jobs.map Job.serial, x < t.registered
  announced_nodup : t.announced.Nodup
  announced_lt : ∀ x ∈ t.announced, x < t.registered
  not_announced : ∀ x ∈ t.jobs.map Job.serial, x ∉ t.announced

theorem JobSystem.Inv.quiet {s : JobSystem} (h : s.Inv) (hd : s.drain = .idle) :
    s.table.Quiet := by
  have htr : s.tracked = s.table.jobs := TableState.tracked_of_ne (by rw [hd]; nofun)
  have hsound := h.sound
  have hnum := h.numbered
  rw [unread, hd, htr] at hsound
  refine ⟨hsound, htr ▸ hnum.nodup, htr ▸ hnum.lt, hnum.announced_nodup, hnum.announced_lt, ?_⟩
  intro x hx hann
  obtain ⟨n, i, hm, -⟩ := hnum.matched x (htr ▸ hx) hann
  rw [hd] at hm
  cases hm

theorem JobTable.Quiet.inv {t : JobTable} (h : t.Quiet) (children : List ℕ) :
    (⟨⟨t, .idle⟩, children⟩ : JobSystem).Inv :=
  ⟨h.sound, trivial, ⟨h.nodup, h.lt, h.announced_nodup, h.announced_lt,
    fun x hx ha => absurd ha (h.not_announced x hx), nofun⟩⟩

theorem JobTable.quiet_empty : empty.Quiet :=
  ⟨.nil, by decide, by decide, by decide, by decide, by decide⟩

/-- A change of the jobs that adds none. -/
theorem JobTable.Quiet.of_subset {t : JobTable} (h : t.Quiet) {jobs : List Job}
    (hs : Sound jobs (t.pipe.map Notification.pid)) (hn : (jobs.map Job.serial).Nodup)
    (hsub : jobs.map Job.serial ⊆ t.jobs.map Job.serial) :
    ({ t with jobs := jobs } : JobTable).Quiet where
  sound := hs
  nodup := hn
  lt x hx := h.lt x (hsub hx)
  announced_nodup := h.announced_nodup
  announced_lt := h.announced_lt
  not_announced x hx := h.not_announced x (hsub hx)

theorem JobTable.Quiet.markJob {t : JobTable} (h : t.Quiet) (state : ProcState) (n : ℤ) :
    (t.markJob state n).Quiet := by
  rw [JobTable.markJob]
  rcases hu : updateFirst (Job.mark state n) t.jobs with _ | ⟨jobs, b⟩
  · exact h
  have hnum : jobs.map Job.serial = t.jobs.map Job.serial :=
    map_updateFirst (fun _ _ _ hj => by rw [(Job.mark_cases hj).2]) hu
  refine h.of_subset ?_ (hnum ▸ h.nodup) (hnum ▸ List.Subset.refl _)
  obtain ⟨pre, j, j', post, hjobs, rfl, hj⟩ := exists_of_updateFirst hu
  have hs := h.sound
  rw [hjobs] at hs
  have hmem : j ∈ pre ++ j :: post := by simp
  rw [← List.append_nil (t.pipe.map Notification.pid)]
  refine hs.replace (Job.wf_of_mark hj (hs.wf j hmem)) (Job.pids_of_mark hj) (by simp) ?_
  intro l hl
  rw [List.append_nil, (Job.mark_cases hj).2]
  exact hs.count j hmem l hl

theorem JobTable.Quiet.removeJobByNumber {t : JobTable} (h : t.Quiet) (n : ℤ) :
    (t.removeJobByNumber n).Quiet := by
  rw [JobTable.removeJobByNumber]
  rcases hi : t.jobs.findIdx? (Job.hasNumber n) with _ | i
  · exact h
  obtain ⟨hlt, -⟩ := List.findIdx?_eq_some_iff_getElem.1 hi
  have hp := perm_swapRemove (List.getElem?_eq_getElem hlt)
  have hn := (hp.map Job.serial).nodup_iff.1 h.nodup
  refine h.of_subset (h.sound.perm hp).tail (List.nodup_cons.1 hn).2 fun x hx => ?_
  exact (hp.map Job.serial).mem_iff.2 (.tail _ hx)

theorem JobTable.announced_of_printed (t t' : JobTable) {m : Message}
    (h : t'.printed = t.printed ++ [m]) :
    t'.announced = t.announced ++ m.announces.toList := by
  rw [announced, announced, h, List.filterMap_append]
  cases hm : m.announces <;> simp [hm]

/-- What a line that announces no job leaves as it is. -/
theorem JobTable.Quiet.print {t : JobTable} (h : t.Quiet) {m : Message} (hm : m.announces = none) :
    ({ t with printed := t.printed ++ [m] } : JobTable).Quiet := by
  have ha : ({ t with printed := t.printed ++ [m] } : JobTable).announced = t.announced := by
    rw [announced_of_printed t _ rfl, hm, Option.toList_none, List.append_nil]
  exact ⟨h.sound, h.nodup, h.lt, ha ▸ h.announced_nodup, ha ▸ h.announced_lt,
    ha ▸ h.not_announced⟩

theorem JobTable.Quiet.snoc {t : JobTable} (h : t.Quiet) {j : Job}
    (hs : Sound (t.jobs ++ [j]) (t.pipe.map Notification.pid))
    (hj : j.serial = t.registered) (next : ℤ) :
    ({ t with jobs := t.jobs ++ [j], registered := t.registered + 1, nextJobNumber := next } :
      JobTable).Quiet := by
  have hmap : (t.jobs ++ [j]).map Job.serial = t.jobs.map Job.serial ++ [t.registered] := by
    rw [List.map_append, List.map_singleton, hj]
  have hmem : ∀ x ∈ (t.jobs ++ [j]).map Job.serial,
      x ∈ t.jobs.map Job.serial ∨ x = t.registered := by
    intro x hx
    rwa [hmap, List.mem_append, List.mem_singleton] at hx
  refine ⟨hs, ?_, ?_, h.announced_nodup, fun x hx => Nat.lt_succ_of_lt (h.announced_lt x hx), ?_⟩
  · rw [hmap, List.nodup_append]
    refine ⟨h.nodup, by simp, fun x hx y hy hxy => ?_⟩
    rw [List.mem_singleton] at hy
    exact Nat.lt_irrefl _ (hy ▸ hxy ▸ h.lt x hx)
  · intro x hx
    rcases hmem x hx with hx | rfl
    · exact Nat.lt_succ_of_lt (h.lt x hx)
    · exact Nat.lt_succ_self _
  · intro x hx hann
    rcases hmem x hx with hx | rfl
    · exact h.not_announced x hx hann
    · exact Nat.lt_irrefl _ (h.announced_lt _ hann)

theorem Sound.register {t : JobTable} (h : Sound t.jobs (t.pipe.map Notification.pid))
    {procs : List (ℕ × Str)} (hf : t.Fresh procs) (serial : ℕ) (n : ℤ) (state : ProcState)
    (pgid : ℕ) (cmdline : Str) :
    Sound (t.jobs ++ [Job.new serial n state pgid procs cmdline])
      (t.pipe.map Notification.pid) := by
  obtain ⟨hne, hnodup, hfresh⟩ := hf
  have hsub := List.take_sublist maxProcs (procs.map Prod.fst)
  have hfresh' : ∀ p ∈ (Job.new serial n state pgid procs cmdline).pids,
      p ∉ t.jobs.flatMap Job.pids ∧ p ∉ t.pipe.map Notification.pid := by
    rw [Job.pids_new]
    exact fun p hp => hfresh p (hsub.subset hp)
  refine h.snoc (Job.wf_new hne serial n state pgid cmdline) ?_ ?_ (fun p hp => (hfresh' p hp).1)
    (fun p hp => (hfresh' p hp).2)
  · have hpos : 0 < (procs.take maxProcs).length := by
      rw [List.length_take]
      exact Nat.lt_min.2 ⟨by decide, List.length_pos_iff.2 hne⟩
    exact Int.ne_of_gt (Int.natCast_pos.2 hpos)
  · rw [Job.pids_new]
    exact hnodup.sublist hsub

theorem JobTable.Quiet.registerJob {t : JobTable} (h : t.Quiet) {state : ProcState}
    {message : Job → Message} (hm : ∀ j, (message j).announces = none) (pgid : ℕ)
    {procs : List (ℕ × Str)} (cmdline : Str) (hf : t.Fresh procs) :
    (t.registerJob state message pgid procs cmdline).Quiet := by
  rw [JobTable.registerJob]
  split
  · exact h.print rfl
  · have hs := h.sound.register hf t.registered t.nextJobNumber state pgid cmdline
    exact (h.snoc hs rfl _).print (hm _)

/-! ### Steps of the drain -/

/-- What a step of the drain does to the jobs.  It keeps them all, and is done
    with a notification only if that is about none of them; it may announce a
    job that has no process left.  Or it removes the one job its notification
    is about, which has no process left and is announced. -/
inductive Drained (s s' : JobSystem) : Prop where
  | kept (tracked : s'.tracked = s.tracked)
      (inHand : ∀ n ∈ s.drain.inHand,
        n ∈ s'.drain.inHand ∨ ∀ j ∈ s'.tracked, j.leader ≠ some n.pid)
      (announced : s'.table.announced = s.table.announced ∨
        ∃ j ∈ s.tracked, j.remaining = 0 ∧
          s'.table.announced = s.table.announced ++ [j.serial])
  | removed (n : Notification) (j : Job) (inHand : s.drain.inHand = [n])
      (leader : j.leader = some n.pid) (remaining : j.remaining = 0)
      (exited : ∀ p ∈ j.procs, p.exited) (perm : s.tracked.Perm (j :: s'.tracked))
      (others : ∀ k ∈ s'.tracked, k.leader ≠ some n.pid)
      (announced : s'.table.announced = s.table.announced ∧ j.serial ∈ s.table.announced)

theorem JobSystem.Numbered.of_eq {s s' : JobSystem} (h : s.Numbered)
    (hd : ∀ n i, s.drain ≠ .matched n i) (hd' : ∀ n i, s'.drain ≠ .matched n i) (htr : s'.tracked = s.tracked)
    (hp : s'.table.printed = s.table.printed)
    (hnext : s'.table.registered = s.table.registered) : s'.Numbered := by
  have ha : s'.table.announced = s.table.announced := by
    rw [JobTable.announced, hp, JobTable.announced]
  refine ⟨htr ▸ h.nodup, ?_, ha ▸ h.announced_nodup, ?_, ?_, fun n i hm => absurd hm (hd' n i)⟩
  · rw [htr, hnext]; exact h.lt
  · rw [ha, hnext]; exact h.announced_lt
  · intro x hx hax
    obtain ⟨n, i, hm, -⟩ := h.matched x (htr ▸ hx) (ha ▸ hax)
    exact absurd hm (hd n i)

/-- A job is announced when its notification is found. -/
theorem JobSystem.Numbered.announce {s s' : JobSystem} (h : s.Numbered)
    (hd : ∀ n i, s.drain ≠ .matched n i) {n : Notification} {i : ℕ} {j : Job}
    (hj : s.table.jobs[i]? = some j) (htr : s.tracked = s.table.jobs) {m : Message}
    (hm : m.announces = some j.serial)
    (hs' : s' = ⟨⟨{ s.table with printed := s.table.printed ++ [m] }, .matched n i⟩, s.children⟩) :
    s'.Numbered := by
  subst hs'
  have ha := JobTable.announced_of_printed s.table
    { s.table with printed := s.table.printed ++ [m] } rfl
  rw [hm, Option.toList_some] at ha
  have hjmem : j.serial ∈ s.tracked.map Job.serial :=
    htr ▸ List.mem_map_of_mem (List.mem_of_getElem? hj)
  have hnew : ∀ x ∈ s.tracked.map Job.serial, x ∉ s.table.announced := fun x hx hax => by
    obtain ⟨n, i, hm, -⟩ := h.matched x hx hax
    exact hd n i hm
  have htr' : (⟨{ s.table with printed := s.table.printed ++ [m] }, .matched n i⟩ :
      TableState).tracked = s.tracked := htr.symm
  refine ⟨htr' ▸ h.nodup, htr' ▸ h.lt, ?_, ?_, ?_, ?_⟩
  · rw [ha, List.nodup_append]
    refine ⟨h.announced_nodup, by simp, fun x hx y hy hxy => ?_⟩
    rw [List.mem_singleton] at hy
    exact hnew _ hjmem (hy ▸ hxy ▸ hx)
  · intro x hx
    rw [ha, List.mem_append, List.mem_singleton] at hx
    rcases hx with hx | rfl
    · exact h.announced_lt x hx
    · exact h.lt _ hjmem
  · intro x hx hax
    rw [ha, List.mem_append, List.mem_singleton] at hax
    rcases hax with hax | rfl
    · exact absurd hax (hnew x (htr' ▸ hx))
    · exact ⟨n, i, rfl, by simp [hj]⟩
  · intro n' i' hd' x hx
    cases hd'
    rw [List.getElem?_map, hj] at hx
    cases hx
    rw [ha]
    exact List.mem_append_right _ (List.mem_singleton_self _)

/-- The removal of the announced job. -/
theorem JobSystem.Numbered.removed {s s' : JobSystem} (h : s.Numbered) {n : Notification} {i : ℕ}
    {j : Job} (hd : s.drain = .matched n i) (hj : s.table.jobs[i]? = some j)
    (hd' : s'.drain = .copied) (hp : s.tracked.Perm (j :: s'.tracked))
    (hpr : s'.table.printed = s.table.printed) (hnext : s'.table.registered = s.table.registered) : s'.Numbered := by
  have ha : s'.table.announced = s.table.announced := by
    rw [JobTable.announced, hpr, JobTable.announced]
  have hpn := hp.map Job.serial
  rw [List.map_cons] at hpn
  have hnodup := List.nodup_cons.1 (hpn.nodup_iff.1 h.nodup)
  have hsub : ∀ x ∈ s'.tracked.map Job.serial, x ∈ s.tracked.map Job.serial :=
    fun x hx => hpn.mem_iff.2 (.tail _ hx)
  refine ⟨hnodup.2, ?_, ha ▸ h.announced_nodup, ?_, ?_, ?_⟩
  · exact fun x hx => hnext ▸ h.lt x (hsub x hx)
  · rw [ha, hnext]; exact h.announced_lt
  · intro x hx hax
    obtain ⟨n', i', hd', hx'⟩ := h.matched x (hsub x hx) (ha ▸ hax)
    rw [hd] at hd'
    cases hd'
    rw [List.getElem?_map, hj] at hx'
    cases hx'
    exact absurd hx hnodup.1
  · intro n' i' hm
    rw [hd'] at hm
    cases hm

/-- The job whose completion was announced is removed. -/
theorem JobSystem.Inv.drainMatched {t : JobTable} {n : Notification} {i : ℕ} {children : List ℕ}
    (h : (⟨⟨t, .matched n i⟩, children⟩ : JobSystem).Inv) :
    (⟨⟨t, .matched n i⟩, children⟩ : JobSystem).drained.Inv ∧
      Drained ⟨⟨t, .matched n i⟩, children⟩ (drained ⟨⟨t, .matched n i⟩, children⟩) := by
  have hat : (t.jobs.map Job.leader)[i]? = some (some n.pid) := h.atDrain
  rw [List.getElem?_map, Option.map_eq_some_iff] at hat
  obtain ⟨j, hj, hl⟩ := hat
  have hp := perm_swapRemove hj
  have hsound := h.sound.perm hp
  have hr := hsound.remaining_eq_zero (.head _) hl (.head _)
  have hex := (hsound.wf j (.head _)).remaining_eq_zero.1 hr
  have hothers := hsound.leader_ne_of_cons hl
  have hann : j.serial ∈ t.announced := h.numbered.announced n i rfl _ (by simp [hj])
  refine ⟨⟨hsound.tail.consume hothers, ?_, h.numbered.removed rfl hj rfl hp rfl rfl⟩,
    .removed n j rfl hl hr hex hp hothers ⟨rfl, hann⟩⟩
  obtain ⟨z, hz, hmem⟩ := exists_of_copyLast hj
  refine ⟨swapRemove i t.jobs, z, hz, fun p _ hzp => ?_⟩
  rcases hmem with hmem | rfl
  · exact ⟨z, hmem, hzp⟩
  · obtain ⟨-, q, hq, hqex, -⟩ := hzp
    rw [hex q hq] at hqex
    cases hqex

/-- The drain looks at one slot. -/
theorem JobSystem.Inv.drainScanning {t : JobTable} {n : Notification} {i : ℕ} {children : List ℕ}
    (h : (⟨⟨t, .scanning n i⟩, children⟩ : JobSystem).Inv) :
    (⟨⟨t, .scanning n i⟩, children⟩ : JobSystem).drained.Inv ∧
      Drained ⟨⟨t, .scanning n i⟩, children⟩ (drained ⟨⟨t, .scanning n i⟩, children⟩) := by
  rcases hj : t.jobs[i]? with _ | j
  · -- no slot has the leader
    have hne : ∀ j ∈ t.jobs, j.leader ≠ some n.pid := by
      intro j hjm hl
      obtain ⟨k, hk, rfl⟩ := List.mem_iff_getElem.1 hjm
      have hki : k < i := Nat.lt_of_lt_of_le hk (List.getElem?_eq_none_iff.1 hj)
      exact h.atDrain k hki (by simp [hk, hl])
    simp only [drained, JobTable.drainStep, hj]
    refine ⟨⟨h.sound.consume hne, trivial, h.numbered.of_eq nofun nofun rfl rfl rfl⟩,
      .kept rfl ?_ (.inl rfl)⟩
    intro m hm
    rw [Drain.inHand, List.mem_singleton] at hm
    exact .inr (hm ▸ hne)
  · have hjmem : j ∈ t.jobs := List.mem_of_getElem? hj
    have hact : j.active := (h.sound.wf j hjmem).active
    by_cases hl : j.leader = some n.pid
    · have hr : j.remaining = 0 := h.sound.remaining_eq_zero hjmem hl (.head _)
      simp only [drained, JobTable.drainStep, hj, hact, hl, and_self, if_true]
      refine ⟨⟨h.sound, ?_, h.numbered.announce nofun hj rfl rfl rfl⟩,
        .kept rfl (fun m hm => .inl hm) (.inr ⟨j, hjmem, hr, ?_⟩)⟩
      · simp [AtDrain, hj, hl]
      · exact JobTable.announced_of_printed t { t with printed := t.printed ++ [_] } rfl
    · simp only [drained, JobTable.drainStep, hj, hl, and_false, if_false]
      refine ⟨⟨h.sound, ?_, h.numbered.of_eq nofun nofun rfl rfl rfl⟩,
        .kept rfl (fun m hm => .inl hm) (.inl rfl)⟩
      intro k hk
      rcases Nat.lt_succ_iff_lt_or_eq.1 hk with hk | rfl
      · exact h.atDrain k hk
      · simp [hj, hl]

/-- **A step of the drain.** -/
theorem JobSystem.Inv.drainStep {s : JobSystem} (h : s.Inv) : s.drained.Inv ∧ Drained s s.drained := by
  obtain ⟨⟨t, d⟩, children⟩ := s
  cases d with
  | idle =>
    exact ⟨⟨h.sound, trivial, h.numbered.of_eq nofun nofun rfl rfl rfl⟩, .kept rfl nofun (.inl rfl)⟩
  | reading =>
    rcases hp : t.pipe with _ | ⟨n, pipe⟩
    · simp only [drained, JobTable.drainStep, hp]
      exact ⟨⟨h.sound, trivial, h.numbered.of_eq nofun nofun rfl rfl rfl⟩,
        .kept rfl nofun (.inl rfl)⟩
    · simp only [drained, JobTable.drainStep, hp]
      refine ⟨⟨?_, nofun, h.numbered.of_eq nofun nofun rfl rfl rfl⟩, .kept rfl nofun (.inl rfl)⟩
      have hsound := h.sound
      rw [unread, hp] at hsound
      exact hsound
  | scanning n i => exact h.drainScanning
  | matched n i => exact h.drainMatched
  | copied =>
    exact ⟨⟨h.sound, trivial, h.numbered.of_eq nofun nofun rfl rfl rfl⟩, .kept rfl nofun (.inl rfl)⟩

/-! ### A whole call of the drain -/

/-- The drain has ended, has read every notification, and has removed and
    announced the jobs that had no process left, and no others. -/
structure JobSystem.Finished (s s' : JobSystem) : Prop where
  idle : s'.drain = .idle
  pipe : s'.table.pipe = []
  tracked : s'.tracked.Perm (s.tracked.filter (·.remaining ≠ 0))
  announced : ∀ x, x ∈ s'.table.announced ↔
    x ∈ s.table.announced ∨ ∃ j ∈ s.tracked, j.remaining = 0 ∧ j.serial = x

/-- What a step has done goes before what the rest of the call does. -/
theorem JobSystem.Finished.of_drained {s s₁ s' : JobSystem} (h : s₁.Finished s')
    (hd : Drained s s₁) : s.Finished s' := by
  cases hd with
  | kept htr _ hann =>
    refine ⟨h.idle, h.pipe, htr ▸ h.tracked, fun x => ?_⟩
    rw [h.announced, htr]
    rcases hann with hann | ⟨j, hj, hr, hann⟩
    · rw [hann]
    · rw [hann, List.mem_append, List.mem_singleton]
      constructor
      · rintro ((hx | rfl) | hx)
        · exact .inl hx
        · exact .inr ⟨j, hj, hr, rfl⟩
        · exact .inr hx
      · rintro (hx | hx)
        · exact .inl (.inl hx)
        · exact .inr hx
  | removed n j _ _ hr _ hp _ hann =>
    refine ⟨h.idle, h.pipe, h.tracked.trans ?_, fun x => ?_⟩
    · have hf := hp.filter (·.remaining ≠ 0)
      rw [List.filter_cons_of_neg (by simp [hr])] at hf
      exact hf.symm
    · rw [h.announced, hann.1]
      constructor
      · rintro (hx | ⟨k, hk, hkr, hkx⟩)
        · exact .inl hx
        · exact .inr ⟨k, hp.mem_iff.2 (.tail _ hk), hkr, hkx⟩
      · rintro (hx | ⟨k, hk, hkr, rfl⟩)
        · exact .inl hx
        · rcases List.mem_cons.1 (hp.mem_iff.1 hk) with rfl | hk
          · exact .inl hann.2
          · exact .inr ⟨k, hk, hkr, rfl⟩

/-- A bound on the steps the drain still takes. -/
def JobTable.work (t : JobTable) : Drain → ℕ
  | .idle | .reading => t.pipe.length * (t.jobs.length + 5)
  | .scanning _ i => t.pipe.length * (t.jobs.length + 5) + (t.jobs.length - i) + 3
  | .matched _ _ => t.pipe.length * (t.jobs.length + 5) + 2
  | .copied => t.pipe.length * (t.jobs.length + 5) + 1

theorem JobTable.work_drainStep (t : JobTable) {d : Drain} (hi : d ≠ .idle)
    (hr : d = .reading → t.pipe ≠ []) :
    (t.drainStep d).1.work (t.drainStep d).2 < t.work d ∧ (t.drainStep d).2 ≠ .idle := by
  cases d with
  | idle => exact absurd rfl hi
  | reading =>
    obtain ⟨n, pipe, hp⟩ := List.exists_cons_of_ne_nil (hr rfl)
    have hstep : t.drainStep .reading = ({ t with pipe := pipe }, .scanning n 0) := by
      rw [drainStep, hp]
    rw [hstep]
    refine ⟨?_, by simp⟩
    simp only [work, hp, List.length_cons, Nat.add_mul]
    omega
  | scanning n i =>
    rw [drainStep]
    rcases hj : t.jobs[i]? with _ | j
    · refine ⟨?_, by simp⟩
      simp only [work]
      omega
    · have hlt := (List.getElem?_eq_some_iff.1 hj).1
      simp only
      split
      · refine ⟨?_, by simp⟩
        simp only [work]
        omega
      · refine ⟨?_, by simp⟩
        simp only [work]
        omega
  | matched n i =>
    have hlen : (copyLast i t.jobs).length = t.jobs.length := by
      rw [copyLast]
      split <;> simp
    refine ⟨?_, by simp [drainStep]⟩
    simp only [drainStep, work, hlen]
    omega
  | copied =>
    refine ⟨?_, by simp [drainStep]⟩
    have hle := Nat.mul_le_mul_left t.pipe.length
      (show t.jobs.length - 1 + 5 ≤ t.jobs.length + 5 by omega)
    simp only [drainStep, work, List.length_dropLast]
    omega

/-- Nothing is left to be read, so every job has a process left. -/
theorem JobSystem.Inv.finished {s : JobSystem} (h : s.Inv) (hd : s.drain = .idle)
    (hp : s.table.pipe = []) : s.Finished s := by
  have hunread : s.unread = [] := by rw [unread, hd, hp]; rfl
  have hr : ∀ j ∈ s.tracked, j.remaining ≠ 0 := by
    intro j hj h0
    obtain ⟨l, hl⟩ := Option.ne_none_iff_exists'.1 (h.sound.wf j hj).leader_ne
    have hc := h.sound.count j hj l hl
    rw [hunread, if_pos h0] at hc
    cases hc
  refine ⟨hd, hp, ?_, fun x => ⟨.inl, ?_⟩⟩
  · rw [List.filter_eq_self.2 fun j hj => decide_eq_true (hr j hj)]
  · rintro (hx | ⟨j, hj, h0, -⟩)
    · exact hx
    · exact absurd h0 (hr j hj)

/-- **A drain that is not interrupted any more ends**, wherever it is. -/
theorem JobSystem.Inv.drains {s : JobSystem} (h : s.Inv) : ∃ s', s.DrainsTo s' ∧ s.Finished s' := by
  -- a step that is not the last one leaves less work
  have hgo : ∀ k, ∀ s : JobSystem, s.Inv → s.table.work s.drain = k → s.drain ≠ .idle →
      ∃ s', s.DrainsTo s' ∧ s.Finished s' := by
    intro k
    induction k using Nat.strongRecOn with
    | ind k ih =>
      intro s h hk hi
      obtain ⟨hinv, hd⟩ := h.drainStep
      have hstep : s.DrainsTo s.drained := .next .start rfl rfl
      by_cases hr : s.drain = .reading ∧ s.table.pipe = []
      · obtain ⟨⟨t, d⟩, children⟩ := s
        obtain ⟨rfl, hp⟩ : d = .reading ∧ t.pipe = [] := hr
        refine ⟨_, hstep, (hinv.finished ?_ ?_).of_drained hd⟩ <;>
          simp only [drained, JobTable.drainStep, hp]
      · obtain ⟨hlt, hi'⟩ := s.table.work_drainStep hi fun hread hp => hr ⟨hread, hp⟩
        obtain ⟨s', hs', hf⟩ := ih _ (hk ▸ hlt) s.drained hinv rfl hi'
        exact ⟨s', Reach.trans hstep hs', hf.of_drained hd⟩
  by_cases hi : s.drain = .idle
  · obtain ⟨hinv, hd⟩ := h.drainStep
    have hi' : s.drained.drain ≠ .idle := by
      simp only [drained, hi, JobTable.drainStep]
      nofun
    obtain ⟨s', hs', hf⟩ := hgo _ s.drained hinv rfl hi'
    exact ⟨s', Reach.trans (.next .start rfl rfl) hs', hf.of_drained hd⟩
  · exact hgo _ s h rfl hi

/-! ## Whole runs -/

theorem JobSystem.Inv.call {s : JobSystem} {t : TableState} {f : JobTable → JobTable} (h : s.Inv)
    (hf : s.table.Quiet → (f s.table).Quiet) (hs : s.toTableState.call f = some t)
    (children : List ℕ) : (⟨t, children⟩ : JobSystem).Inv := by
  rw [TableState.call] at hs
  split at hs
  case isFalse => cases hs
  rename_i hd
  cases hs
  rw [hd]
  exact (hf (h.quiet hd)).inv children

/-- The children do not matter while the drain is not called. -/
theorem JobSystem.Inv.children {s : JobSystem} (h : s.Inv) (hd : s.drain = .idle)
    (children : List ℕ) : (⟨s.toTableState, children⟩ : JobSystem).Inv := by
  obtain ⟨⟨t, d⟩, cs⟩ := s
  obtain rfl : d = .idle := hd
  exact (h.quiet rfl).inv children

theorem JobSystem.Inv.table {s : JobSystem} {t : TableState} {a : TableAct} (h : s.Inv)
    (ha : s.Allows a) (hs : s.toTableState.step a = some t) : (⟨t, s.reaping a⟩ : JobSystem).Inv := by
  cases a with
  | registerBackground pgid procs cmdline =>
    rw [TableState.step, if_pos ha.1] at hs
    exact h.call (fun hq => hq.registerJob (fun _ => rfl) pgid cmdline ha) hs _
  | registerStopped pgid procs cmdline =>
    rw [TableState.step, if_pos ha.1] at hs
    exact h.call (fun hq => hq.registerJob (fun _ => rfl) pgid cmdline ha) hs _
  | deliver pid st =>
    cases hs
    exact h.report ha st
  | markRunning n => exact h.call (fun hq => hq.markJob .running n) hs _
  | markStopped n => exact h.call (fun hq => hq.markJob .stopped n) hs _
  | remove n => exact h.call (fun hq => hq.removeJobByNumber n) hs _
  | drain =>
    cases hs
    exact h.drainStep.1

theorem JobSystem.Inv.step {s s' : JobSystem} {a : JobAct} (h : s.Inv)
    (hs : s.step a = some s') : s'.Inv := by
  cases a with
  | fork pid =>
    simp only [JobSystem.step] at hs
    split at hs
    case isFalse => cases hs
    case isTrue hd =>
      cases hs
      exact h.children hd.1 _
  | reap pid =>
    simp only [JobSystem.step] at hs
    split at hs
    case isFalse => cases hs
    case isTrue hd =>
      cases hs
      exact h.children hd _
  | table a =>
    simp only [JobSystem.step] at hs
    split at hs
    case isFalse => cases hs
    case isTrue ha =>
      obtain ⟨t, ht, rfl⟩ := Option.map_eq_some_iff.1 hs
      exact h.table ha ht

/-- Jobs are completed exactly once. -/
structure JobSystem.CompletesOnce (s : JobSystem) : Prop where
  /-- `remaining` counts the processes not recorded as exited -/
  remaining : ∀ j ∈ s.tracked, j.remaining = j.procs.countP (!·.exited)
  /-- a job has an unread notification, exactly one, iff nothing remains -/
  unread : ∀ j ∈ s.tracked, ∃ l, j.leader = some l ∧
    (j.remaining = 0 → s.unread.count l = 1) ∧ (0 < j.remaining → s.unread.count l = 0)
  /-- the drain removes only the finished jobs it read about -/
  drained : ∀ s', s.step (.table .drain) = some s' → Drained s s'
  /-- and if it is not interrupted any more, it removes all of them and ends -/
  drains : ∃ s', s.DrainsTo s' ∧ s.Finished s'
  once : (s.tracked.map Job.serial).Nodup
  announced : s.table.announced.Nodup

/-- **Exactly-once completion**: for every interleaving of the shell's calls
    with the reports to the handler, in every state. -/
theorem jobs_completed_once {s : JobSystem} (h : Reachable JobSystem.step .init s) :
    s.CompletesOnce := by
  have inv : s.Inv :=
    h.invariant (JobTable.quiet_empty.inv []) fun _ _ _ hi _ hs => hi.step hs
  refine ⟨fun j hj => (inv.sound.wf j hj).remaining, fun j hj => ?_, ?_, inv.drains,
    inv.numbered.nodup, inv.numbered.announced_nodup⟩
  · obtain ⟨l, hl⟩ := Option.ne_none_iff_exists'.1 (inv.sound.wf j hj).leader_ne
    have hc := inv.sound.count j hj l hl
    exact ⟨l, hl, fun h0 => by rw [hc, if_pos h0], fun h0 => by rw [hc, if_neg (by omega)]⟩
  · intro s' hs
    obtain rfl : s.drained = s' := Option.some.inj hs
    exact inv.drainStep.2

/-- Two jobs, the first with a finished process; a report about the second
    arrives between the copy of its slot and the lowering of the count. -/
def interrupted : List JobAct :=
  [.fork 7, .table (.registerBackground 7 [(7, str "a")] (str "a")),
    .fork 8, .table (.registerBackground 8 [(8, str "b")] (str "b")),
    .table (.deliver 7 .exited), .table .drain, .table .drain, .table .drain, .table .drain,
    .table (.deliver 8 .signaled)]

theorem jobs_completed_once_interrupted : ∃ s : JobSystem,
    run JobSystem.step interrupted .init = some s ∧
    s.drain = .copied ∧ s.tracked.map Job.remaining = [0] ∧ s.unread = [8] ∧ s.CompletesOnce :=
  ⟨_, rfl, rfl, rfl, rfl, jobs_completed_once (Reachable.of_run interrupted rfl)⟩

end CShell
