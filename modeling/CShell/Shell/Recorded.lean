/-
  C-Shell formalization — which children the job table records.

  At a prompt every process the table records as not exited should be a child
  that is not reaped (`Shell.Recorded`).  While a foreground wait is going on,
  the processes it has reaped count as children still (`Shell.members`); they
  are forgotten when the wait ends.

  `recorded_iff`: the table is right at every prompt of a run iff whenever a
  foreground wait is told of a stopped process, it has reaped nothing before
  (or there is no room to register the stopped pipeline).
-/
import CShell.Shell.JobControl
import CShell.Shell.Groups

namespace CShell

open Lib

/-! ## The property -/

/-- The table is right about the children. -/
structure Shell.Recorded (s : Shell) : Prop where
  /-- a process not recorded as exited is a child that is not reaped -/
  unreaped : ∀ j ∈ s.table.jobs, ∀ p ∈ j.procs, p.exited = false →
    p.pid ∈ s.children.map Child.pid
  /-- a job all of whose processes are reaped has none remaining -/
  remaining : ∀ j ∈ s.table.jobs, (∀ p ∈ j.procs, p.pid ∉ s.children.map Child.pid) →
    j.remaining = 0

/-- A stop is reported to a foreground wait that has reaped nothing before, or
    that is for a pipeline the table has no room for. -/
def Shell.StopsWhole (s : Shell) : ShellAct → Prop
  | .wait _ .stopped =>
    match s.place with
    | .launched w _ _ => w.reaped = [] ∨ maxJobs ≤ s.table.jobs.length
    | .resumed w _ _ => w.reaped = []
    | _ => True
  | _ => True

/-! ## The invariant -/

/-- Jobs and members fit. -/
structure TableFits (js : List Job) (ms : List (ℕ × Option ℕ)) : Prop where
  wf : ∀ j ∈ js, j.WF
  tracks : Tracks (js.map Job.group) ms

/-- The processes the present foreground wait has reaped. -/
def Place.reaped (c : Place) : List (ℕ × Option ℕ) :=
  match c.wait? with
  | some w => w.reaped.map (·, some w.pgid)
  | none => []

/-- A child as a member of its group. -/
def Child.member (c : Child) : ℕ × Option ℕ := (c.pid, c.pgid)

/-- The children, and what the present wait has reaped. -/
def Shell.members (s : Shell) : List (ℕ × Option ℕ) :=
  s.children.map Child.member ++ s.place.reaped

/-- The jobs in the table. -/
def Shell.tracked (s : Shell) : List Job :=
  match s.place with
  | .main d => s.table.tracked d
  | .launched _ _ _ | .resuming _ | .resumed _ _ _ => s.table.jobs

/-- The process is recorded by the job the functions of the table find for the
    number. -/
def JobTable.Records (t : JobTable) (job : ℤ) (p : ℕ) : Prop :=
  ∃ j, t.jobs.find? (Job.hasNumber job) = some j ∧ p ∈ j.live

/-- The children of a group are recorded by the job. -/
def Shell.Covered (s : Shell) (job : ℤ) (pgid : ℕ) : Prop :=
  ∀ p, (p, some pgid) ∈ s.members → s.table.Records job p

/-- What the shell knows about the children of a pipeline it has launched. -/
structure Shell.Launched (s : Shell) (pgid : ℕ) (procs : List (ℕ × Str)) : Prop where
  ne : procs ≠ []
  length_le : procs.length ≤ maxProcs
  nodup : (procs.map Prod.fst).Nodup
  members : ∀ p, (p, some pgid) ∈ s.members ↔ p ∈ procs.map Prod.fst
  group : ∀ j ∈ s.table.jobs, j.live ≠ [] → j.pgid ≠ pgid

/-- What the shell knows at its place. -/
def Shell.AtPlace (s : Shell) : Prop :=
  match s.place with
  | .main (.matched _ i) => i < s.table.jobs.length
  | .main .copied => s.table.jobs ≠ []
  | .main _ => True
  | .launched w procs _ => s.Launched w.pgid procs
  | .resuming r => r.pids ≠ [] → s.Covered r.job r.pgid
  | .resumed w job _ => s.Covered job w.pgid

/-- The table fits the children, and the shell's place the table. -/
structure Shell.Inv (s : Shell) : Prop where
  fits : TableFits s.tracked s.members
  atPlace : s.AtPlace

theorem Shell.Inv.main {t : JobTable} {cs : List Child}
    (h : TableFits t.jobs (cs.map Child.member)) :
    (⟨t, cs, .main .idle⟩ : Shell).Inv :=
  ⟨by simpa [tracked, JobTable.tracked, members, Place.reaped, Place.wait?] using h, trivial⟩

theorem Shell.inv_init : init.Inv :=
  .main ⟨by simp [JobTable.empty], by simp, by simp [JobTable.empty], by simp [JobTable.empty],
    by simp [JobTable.empty]⟩

/-- The invariant gives the property at a prompt. -/
theorem Shell.Inv.recorded {s : Shell} (h : s.Inv) (hp : s.AtPrompt) : s.Recorded := by
  obtain ⟨t, cs, c⟩ := s
  cases hp
  have hun : ∀ j ∈ t.jobs, ∀ p ∈ j.procs, p.exited = false → p.pid ∈ cs.map Child.pid := by
    intro j hj p hp hex
    have hm := h.fits.tracks.child j.group (List.mem_map_of_mem hj) p.pid
      (Job.mem_live.2 ⟨p, hp, hex, rfl⟩)
    simp only [members, Place.reaped, Place.wait?, List.append_nil, List.mem_map] at hm
    obtain ⟨c, hc, hcm⟩ := hm
    exact List.mem_map.2 ⟨c, hc, congrArg Prod.fst hcm⟩
  refine ⟨hun, fun j hj hall => (h.fits.wf j hj).remaining_eq_zero.2 fun p hp => ?_⟩
  by_contra hex
  exact hall p hp (hun j hj p hp (by simpa using hex))

/-! ### The functions of the table -/

variable {t : JobTable} {ms : List (ℕ × Option ℕ)} {n : ℤ} {pgid : ℕ}

theorem TableFits.markJob (h : TableFits t.jobs ms) (state : ProcState) (n : ℤ) :
    TableFits (t.markJob state n).jobs ms ∧
      (t.markJob state n).jobs.map Job.group = t.jobs.map Job.group := by
  rw [JobTable.markJob]
  rcases hu : updateFirst (Job.mark state n) t.jobs with _ | ⟨js, b⟩
  · exact ⟨h, rfl⟩
  have hg : js.map Job.group = t.jobs.map Job.group :=
    map_updateFirst (fun _ _ _ hj => Job.group_of_mark hj) hu
  obtain ⟨pre, j, j', post, hjobs, rfl, hj⟩ := exists_of_updateFirst hu
  have hwf := h.wf
  rw [hjobs, List.forall_mem_append, List.forall_mem_cons] at hwf
  refine ⟨⟨?_, hg ▸ h.tracks⟩, hg⟩
  rw [List.forall_mem_append, List.forall_mem_cons]
  exact ⟨hwf.1, Job.wf_of_mark hj hwf.2.1, hwf.2.2⟩

/-- Marking a job changes nothing in what it records. -/
theorem JobTable.Records.markJob {p : ℕ} (h : t.Records n p) (state : ProcState) (m : ℤ) :
    (t.markJob state m).Records n p := by
  obtain ⟨j, hj, hp⟩ := h
  rw [JobTable.markJob]
  rcases hu : updateFirst (Job.mark state m) t.jobs with _ | ⟨js, b⟩
  · exact ⟨j, hj, hp⟩
  have hsame : ∀ x y b, Job.mark state m x = some (y, b) → y.hasNumber n = x.hasNumber n := by
    intro x y b hx
    rw [(Job.mark_cases hx).2]
    rfl
  obtain ⟨k, hk, hkj⟩ := find?_updateFirst hsame hu hj
  refine ⟨k, hk, ?_⟩
  rcases hkj with rfl | hkj
  · exact hp
  · have hlive : k.live = j.live := congrArg Group.live (Job.group_of_mark hkj)
    exact hlive ▸ hp

theorem TableFits.of_perm {js js' : List Job} {j : Job} (h : TableFits js ms)
    (hp : js.Perm (j :: js')) : TableFits js' ms where
  wf k hk := h.wf k (hp.mem_iff.2 (.tail _ hk))
  tracks := (h.tracks.perm (hp.map _) (.refl _)).tail

/-- Removal takes out the first job with the number. -/
theorem JobTable.perm_removeJobByNumber {j : Job} (hj : t.jobs.find? (Job.hasNumber n) = some j) :
    t.jobs.Perm (j :: (t.removeJobByNumber n).jobs) := by
  obtain ⟨hn, i, hi, hij, hfirst⟩ := List.find?_eq_some_iff_getElem.1 hj
  have hidx : t.jobs.findIdx? (Job.hasNumber n) = some i := by
    rw [List.findIdx?_eq_some_iff_getElem]
    refine ⟨hi, hij ▸ hn, ?_⟩
    intro k hk
    simpa using hfirst k hk
  rw [JobTable.removeJobByNumber, hidx]
  exact perm_swapRemove (List.getElem?_eq_some_iff.2 ⟨hi, hij⟩)

theorem JobTable.removeJobByNumber_of_none (h : t.jobs.find? (Job.hasNumber n) = none) :
    t.removeJobByNumber n = t := by
  have hidx : t.jobs.findIdx? (Job.hasNumber n) = none := by
    rw [List.findIdx?_eq_none_iff]
    intro j hj
    exact Bool.eq_false_iff.2 (List.find?_eq_none.1 h j hj)
  rw [JobTable.removeJobByNumber, hidx]

theorem TableFits.removeJobByNumber (h : TableFits t.jobs ms) (n : ℤ) :
    TableFits (t.removeJobByNumber n).jobs ms := by
  rcases hj : t.jobs.find? (Job.hasNumber n) with _ | j
  · rw [JobTable.removeJobByNumber_of_none hj]
    exact h
  · exact h.of_perm (JobTable.perm_removeJobByNumber hj)

theorem Job.live_new {procs : List (ℕ × Str)} (h : procs.length ≤ maxProcs) (serial : ℕ) (n : ℤ)
    (state : ProcState) (pgid : ℕ) (cmdline : Str) :
    (new serial n state pgid procs cmdline).live = procs.map Prod.fst := by
  rw [live, new, List.take_of_length_le h, List.filter_eq_self.2, List.map_map]
  · rfl
  · simp only [List.forall_mem_map]
    exact fun _ _ => rfl

/-- A registration, if there is room, records the children of the group. -/
theorem TableFits.registerJob (h : TableFits t.jobs ms) (state : ProcState)
    (message : Job → Message) {procs : List (ℕ × Str)} (cmdline : Str) (hne : procs ≠ [])
    (hlen : procs.length ≤ maxProcs) (hn : (procs.map Prod.fst).Nodup)
    (hmem : ∀ p, (p, some pgid) ∈ ms ↔ p ∈ procs.map Prod.fst)
    (hgroup : ∀ j ∈ t.jobs, j.live ≠ [] → j.pgid ≠ pgid) :
    TableFits (t.registerJob state message pgid procs cmdline).jobs ms := by
  rw [JobTable.registerJob]
  split
  · exact h
  refine ⟨List.forall_mem_append.2 ⟨h.wf, List.forall_mem_singleton.2 (Job.wf_new hne ..)⟩, ?_⟩
  rw [List.map_append, List.map_singleton, Job.group, Job.live_new hlen]
  refine h.tracks.register hn hmem ?_
  intro g hg
  obtain ⟨j, hj, rfl⟩ := List.mem_map.1 hg
  exact hgroup j hj

/-- A report to the handler. -/
theorem TableFits.deliver {js : List Job} (h : TableFits js ms) (pid : ℕ) (st : Status) :
    TableFits (afterReport pid st js) (if st.terminated then ms.filter (·.1 ≠ pid) else ms) := by
  have hg := afterReport_groups pid st (fun j hj => (h.wf j hj).active)
    h.tracks.nodup
  refine ⟨afterReport_wf h.wf, ?_⟩
  rw [hg]
  split
  · exact h.tracks.reap pid
  · rw [List.map_id]
    exact h.tracks

/-- After a report a job still records the processes it did not end. -/
theorem TableFits.records_deliver (h : TableFits t.jobs ms) {pid p : ℕ} {st : Status}
    (hne : st.terminated → p ≠ pid) (hp : t.Records n p) : (t.deliver pid st).Records n p := by
  obtain ⟨j, hj, hp⟩ := hp
  have hact := (h.wf j (List.mem_of_find?_eq_some hj)).active
  rw [JobTable.Records, JobTable.deliver_jobs]
  exact find?_afterReport hj hne hp hact

/-! ### The children -/

theorem members_change (pid : ℕ) (st : Status) (cs : List Child) :
    (cs.map (Child.change pid st)).map Child.member = cs.map Child.member := by
  rw [List.map_map]
  refine List.map_congr_left fun c _ => ?_
  simp only [Function.comp, Child.change]
  split <;> rfl

theorem members_collectReport (pid : ℕ) (st : Status) (cs : List Child) :
    (collectReport pid st cs).map Child.member =
      if st.terminated then (cs.map Child.member).filter (·.1 ≠ pid) else cs.map Child.member := by
  rw [collectReport]
  split
  · rw [List.filter_map]
    rfl
  · rw [List.map_map]
    refine List.map_congr_left fun c _ => ?_
    simp only [Function.comp]
    split <;> rfl

/-- A reaped child is the only one with its pid. -/
theorem perm_collectReport {cs : List Child} {pid g : ℕ} {st : Status}
    (hn : ((cs.map Child.member).map Prod.fst).Nodup) (hr : Reports cs pid st (· = some g))
    (ht : st.terminated) :
    (cs.map Child.member).Perm ((pid, some g) :: (collectReport pid st cs).map Child.member) := by
  obtain ⟨c, hc, rfl, -, hg⟩ := hr
  obtain ⟨pre, post, rfl⟩ := List.append_of_mem hc
  have hcm : c.member = (c.pid, some g) := by
    rw [Child.member, of_decide_eq_true hg]
  simp only [List.map_append, List.map_cons, List.map_map, List.nodup_append,
    List.nodup_cons] at hn
  have hpre : ∀ m ∈ pre.map Child.member, m.1 ≠ c.pid := by
    intro m hm
    obtain ⟨d, hd, rfl⟩ := List.mem_map.1 hm
    exact hn.2.2 d.pid (List.mem_map.2 ⟨d, hd, rfl⟩) _ (.head _)
  have hpost : ∀ m ∈ post.map Child.member, m.1 ≠ c.pid := by
    intro m hm hmc
    obtain ⟨d, hd, rfl⟩ := List.mem_map.1 hm
    exact hn.2.1.1 (List.mem_map.2 ⟨d, hd, hmc⟩)
  rw [members_collectReport, if_pos ht, List.map_append, List.map_cons, List.filter_append,
    List.filter_eq_self.2 fun m hm => decide_eq_true (hpre m hm), List.filter_cons,
    if_neg (by simp [Child.member]), List.filter_eq_self.2 fun m hm => decide_eq_true (hpost m hm),
    ← hcm]
  exact List.perm_middle

theorem spawned_pids (stages : List (Option ℕ × Str)) :
    (spawned stages).map Prod.fst = stages.filterMap Prod.fst := by
  rw [spawned, List.map_filterMap]
  refine List.filterMap_congr fun s _ => ?_
  rcases s with ⟨_ | p, name⟩ <;> rfl

theorem members_newChildren (stages : List (Option ℕ × Str)) :
    (newChildren stages).map Child.member =
      (stages.filterMap Prod.fst).map (·, stages.head?.bind Prod.fst) := by
  rw [newChildren, ← spawned_pids, List.map_map, List.map_map]
  rfl

theorem mem_of_leader {stages : List (Option ℕ × Str)} {g : ℕ}
    (h : stages.head?.bind Prod.fst = some g) : g ∈ stages.filterMap Prod.fst := by
  obtain ⟨x, hx, hg⟩ := Option.bind_eq_some_iff.1 h
  exact List.mem_filterMap.2 ⟨x, List.mem_of_mem_head? hx, hg⟩

/-- The children of a launch are new. -/
theorem TableFits.launch {js : List Job} {cs : List Child}
    {stages : List (Option ℕ × Str)} (h : TableFits js (cs.map Child.member))
    (hl : Launchable cs stages) :
    TableFits js ((cs ++ newChildren stages).map Child.member) := by
  refine ⟨h.wf, ?_⟩
  rw [List.map_append, members_newChildren]
  obtain ⟨-, hn, hunused⟩ := hl
  refine h.tracks.fork hn ?_ ?_
  · intro p hp hmem
    simp only [List.mem_map] at hmem
    obtain ⟨_, ⟨c, hc, rfl⟩, hcp⟩ := hmem
    exact (hunused p hp c hc).1 hcp
  · intro g hg m hm
    obtain ⟨c, hc, rfl⟩ := List.mem_map.1 hm
    exact (hunused g (mem_of_leader hg) c hc).2

/-- The new group has the new children and no others. -/
theorem TableFits.launched {t : JobTable} {cs : List Child} {stages : List (Option ℕ × Str)} {g : ℕ}
    (h : TableFits t.jobs (cs.map Child.member)) (hl : Launchable cs stages)
    (hg : stages.head?.bind Prod.fst = some g) (c : Place) (hc : c.reaped = []) :
    (⟨t, cs ++ newChildren stages, c⟩ : Shell).Launched g (spawned stages) := by
  obtain ⟨hlen, hn, hunused⟩ := hl
  have hgmem := mem_of_leader hg
  refine ⟨?_, Nat.le_trans (List.length_filterMap_le _ _) hlen, spawned_pids _ ▸ hn,
    fun p => ?_, ?_⟩
  · intro hnil
    rw [← spawned_pids, hnil] at hgmem
    cases hgmem
  · rw [Shell.members, hc, List.append_nil, List.map_append, members_newChildren, spawned_pids, hg,
      List.mem_append]
    constructor
    · rintro (hp | hp)
      · obtain ⟨d, hd, hdp⟩ := List.mem_map.1 hp
        exact absurd (congrArg Prod.snd hdp) (hunused g hgmem d hd).2
      · obtain ⟨q, hq, hqp⟩ := List.mem_map.1 hp
        obtain rfl : q = p := congrArg Prod.fst hqp
        exact hq
    · exact fun hp => .inr (List.mem_map.2 ⟨p, hp, rfl⟩)
  · intro j hj hne hjg
    obtain ⟨q, hq⟩ := List.exists_mem_of_ne_nil _ hne
    obtain ⟨d, hd, hdq⟩ := List.mem_map.1 (h.tracks.child j.group (List.mem_map_of_mem hj) q hq)
    exact (hunused g hgmem d hd).2 (hjg ▸ congrArg Prod.snd hdq)

/-! ### Ends of a foreground wait -/

theorem TableFits.forget {js : List Job} {rs : List (ℕ × Option ℕ)}
    (h : TableFits js (ms ++ rs)) (hr : ∀ j ∈ js, ∀ p ∈ j.live, ∀ a, (p, a) ∉ rs) :
    TableFits js ms := by
  refine ⟨h.wf, h.tracks.forget fun g hg => ?_⟩
  obtain ⟨j, hj, rfl⟩ := List.mem_map.1 hg
  exact hr j hj

/-- What a wait for a launched pipeline has reaped is in no job. -/
theorem TableFits.leaveLaunch {js : List Job} {g : ℕ} {rs : List ℕ}
    (h : TableFits js (ms ++ rs.map (·, some g)))
    (hg : ∀ j ∈ js, j.live ≠ [] → j.pgid ≠ g) : TableFits js ms := by
  refine h.forget fun j hj p hp a ha => ?_
  have hpj := h.tracks.child j.group (List.mem_map_of_mem hj) p hp
  obtain ⟨r, hr, hra⟩ := List.mem_map.1 ha
  obtain ⟨rfl, rfl⟩ := Prod.mk.inj hra
  have heq := h.tracks.pgid_unique hpj (List.mem_append_right _ ha)
  exact hg j hj (List.ne_nil_of_mem hp) (Option.some.inj heq)

/-- What a wait for a resumed job has reaped is in that job. -/
theorem TableFits.leaveResume {g : ℕ} {rs : List ℕ}
    (h : TableFits t.jobs (ms ++ rs.map (·, some g)))
    (hc : ∀ p, (p, some g) ∈ ms ++ rs.map (·, some g) → t.Records n p) :
    TableFits (t.removeJobByNumber n).jobs ms := by
  refine (h.removeJobByNumber n).forget fun k hk p hp a ha => ?_
  obtain ⟨r, hr, hra⟩ := List.mem_map.1 ha
  obtain ⟨rfl, rfl⟩ := Prod.mk.inj hra
  obtain ⟨j, hj, hjp⟩ := hc r (List.mem_append_right _ ha)
  -- the job that records it is the one that is removed
  have hperm := (JobTable.perm_removeJobByNumber hj).map Job.group
  have hnodup := (h.tracks.perm hperm (.refl _)).nodup
  rw [List.map_cons, List.flatMap_cons, List.nodup_append] at hnodup
  exact hnodup.2.2 r hjp r (List.mem_flatMap.2 ⟨k.group, List.mem_map_of_mem hk, hp⟩) rfl

theorem JobTable.registerJob_of_full (state : ProcState) (message : Job → Message) (pgid : ℕ)
    (procs : List (ℕ × Str)) (cmdline : Str) (h : maxJobs ≤ t.jobs.length) :
    (t.registerJob state message pgid procs cmdline).jobs = t.jobs := by
  rw [registerJob, if_pos h]

variable {cs : List Child} {procs : List (ℕ × Str)} {cmdline : Str} {w : Wait}

/-- The end of a launch, unless a pipeline is registered that is partly
    reaped. -/
theorem Shell.inv_endLaunch (c : Place)
    (h : TableFits t.jobs (cs.map Child.member ++ w.reaped.map (·, some w.pgid)))
    (hla : (⟨t, cs, .launched w procs cmdline⟩ : Shell).Launched w.pgid procs) {res : WaitResult}
    (hres : res = .stopped → w.reaped = [] ∨ maxJobs ≤ t.jobs.length) :
    ((⟨t, cs, c⟩ : Shell).endLaunch w.pgid procs cmdline res).Inv := by
  have hfits := h.leaveLaunch hla.group
  cases res with
  | finished | signaled | timedOut => exact .main hfits
  | stopped =>
    refine .main ?_
    rcases hres rfl with hnil | hfull
    · refine hfits.registerJob .stopped _ cmdline hla.ne hla.length_le hla.nodup ?_ hla.group
      intro p
      simpa only [members, Place.reaped, Place.wait?, hnil, List.map_nil, List.append_nil]
        using hla.members p
    · simp only [JobTable.registerStoppedJob]
      rw [JobTable.registerJob_of_full _ _ _ _ _ hfull]
      exact hfits

theorem Shell.inv_endResume (c : Place)
    (h : TableFits t.jobs (cs.map Child.member ++ w.reaped.map (·, some w.pgid)))
    (hcov : ∀ p, (p, some w.pgid) ∈ cs.map Child.member ++ w.reaped.map (·, some w.pgid) →
      t.Records n p) {res : WaitResult}
    (hres : res = .stopped → w.reaped = []) : ((⟨t, cs, c⟩ : Shell).endResume n res).Inv := by
  cases res with
  | finished | signaled | timedOut => exact .main (h.leaveResume hcov)
  | stopped =>
    rw [hres rfl, List.map_nil, List.append_nil] at h
    exact .main (h.markJob .stopped n).1

/-! ### Steps -/

theorem Shell.members_eq {c : Place} (hc : c.reaped = []) :
    (⟨t, cs, c⟩ : Shell).members = cs.map Child.member := by
  rw [members, hc, List.append_nil]

theorem Shell.Inv.fits_idle {s : Shell} (h : s.Inv) (hp : s.place = .main .idle) :
    TableFits s.table.jobs (s.children.map Child.member) := by
  have hf := h.fits
  simpa [tracked, JobTable.tracked, members, hp, Place.reaped, Place.wait?] using hf

theorem Shell.Inv.deliver {s : Shell} (h : s.Inv) (pid : ℕ) (st : Status)
    (hu : s.place.unblocked) :
    ({ s with table := s.table.deliver pid st, children := collectReport pid st s.children } :
      Shell).Inv := by
  obtain ⟨t, cs, c⟩ := s
  have hreaped : c.reaped = [] := by cases c <;> first | rfl | cases hu
  have hf := h.fits
  rw [members, hreaped, List.append_nil] at hf
  have hf' := hf.deliver pid st
  rw [← members_collectReport] at hf'
  constructor
  · rw [members, hreaped, List.append_nil]
    cases c with
    | main d =>
      by_cases hd : d = .copied
      · subst hd
        -- the stale last slot may change too, but is not counted
        obtain ⟨js, j, hjobs⟩ := (List.eq_nil_or_concat t.jobs).resolve_left h.atPlace
        rw [List.concat_eq_append] at hjobs
        obtain ⟨k, hk⟩ := afterReport_concat pid st js j
        simp only [tracked, JobTable.tracked, JobTable.deliver_jobs, hjobs, hk,
          List.dropLast_concat] at hf' ⊢
        exact hf'
      · have htr (t : JobTable) (cs : List Child) : (⟨t, cs, .main d⟩ : Shell).tracked = t.jobs :=
          JobTable.tracked_of_ne hd
        rw [htr, JobTable.deliver_jobs]
        rwa [htr] at hf'
    | resuming r =>
      simp only [tracked, JobTable.deliver_jobs] at hf' ⊢
      exact hf'
    | launched | resumed => cases hu
  · cases c with
    | main d =>
      have hat := h.atPlace
      cases d with
      | idle | reading | scanning n i => trivial
      | matched n i =>
        simp only [AtPlace, JobTable.deliver_jobs, length_afterReport] at hat ⊢
        exact hat
      | copied =>
        simp only [AtPlace, JobTable.deliver_jobs, ← List.length_pos_iff,
          length_afterReport] at hat ⊢
        exact hat
    | resuming r =>
      intro hne p hp
      rw [members, hreaped, List.append_nil, members_collectReport] at hp
      have hcov := h.atPlace hne p
      rw [members, hreaped, List.append_nil] at hcov
      split at hp
      · rw [List.mem_filter] at hp
        exact hf.records_deliver (fun _ => of_decide_eq_true hp.2) (hcov hp.1)
      · exact hf.records_deliver (fun ht => absurd ht ‹_›) (hcov hp)
    | launched | resumed => cases hu

/-- A step of the drain. -/
theorem Shell.Inv.drain {t : JobTable} {cs : List Child} {d : Drain}
    (h : (⟨t, cs, .main d⟩ : Shell).Inv) :
    (⟨(t.drainStep d).1, cs, .main (t.drainStep d).2⟩ : Shell).Inv := by
  have hf := h.fits
  cases d with
  | idle => exact ⟨hf, trivial⟩
  | reading =>
    rw [JobTable.drainStep]
    split <;> exact ⟨hf, trivial⟩
  | scanning n i =>
    rw [JobTable.drainStep]
    rcases hj : t.jobs[i]? with _ | j
    · exact ⟨hf, trivial⟩
    · simp only
      split
      · exact ⟨hf, (List.getElem?_eq_some_iff.1 hj).1⟩
      · exact ⟨hf, trivial⟩
  | matched n i =>
    have hj := List.getElem?_eq_getElem (show i < t.jobs.length from h.atPlace)
    obtain ⟨z, hz, -⟩ := exists_of_copyLast hj
    refine ⟨hf.of_perm (perm_swapRemove hj), ?_⟩
    simp only [AtPlace, JobTable.drainStep, hz]
    simp
  | copied => exact ⟨hf, trivial⟩

theorem Wait.got_terminated (w : Wait) (pid : ℕ) {st : Status} (ht : st.terminated) :
    (w.got pid st).1.pgid = w.pgid ∧ (w.got pid st).1.reaped = w.reaped ++ [pid] ∧
      (w.got pid st).2 ≠ some .stopped := by
  have hne : st ≠ .stopped := by
    rintro rfl
    cases ht
  refine ⟨w.got_pgid pid st, ?_, ?_⟩
  · simp only [got, if_neg hne, ht, if_true]
  · simp only [got, if_neg hne, ht, if_true]
    split
    · intro h
      exact result_ne_stopped _ (Option.some.inj h)
    · intro h
      cases h

/-- A foreground wait goes on or ends; what it has reaped is still counted. -/
theorem Shell.Inv.waited {c : Place} {s' : Shell} {cs' : List Child}
    {r : Wait × Option WaitResult} (h : (⟨t, cs, c⟩ : Shell).Inv) (hw : c.wait? = some w)
    (hg : r.1.pgid = w.pgid)
    (hp : (cs.map Child.member ++ w.reaped.map (·, some w.pgid)).Perm
      (cs'.map Child.member ++ r.1.reaped.map (·, some w.pgid)))
    (hG : r.2 = some .stopped → r.1.reaped = [] ∨
      (∃ procs cmdline, c = .launched w procs cmdline) ∧ maxJobs ≤ t.jobs.length)
    (hs : (⟨t, cs', c⟩ : Shell).waited r = some s') : s'.Inv := by
  obtain ⟨w', res⟩ := r
  simp only at hg hp hG
  rw [← hg] at hp
  have hm : (⟨t, cs, c⟩ : Shell).members =
      cs.map Child.member ++ w.reaped.map (·, some w'.pgid) := by
    rw [members, Place.reaped, hw, hg]
  have hf := h.fits
  have hat := h.atPlace
  rw [hm] at hf
  have hf' : TableFits (⟨t, cs, c⟩ : Shell).tracked _ := ⟨hf.wf, hf.tracks.perm (.refl _) hp⟩
  cases c with
  | main d | resuming r => cases hw
  | launched v procs cmdline =>
    cases hw
    have hla : (⟨t, cs', .launched w' procs cmdline⟩ : Shell).Launched w'.pgid procs := by
      have hla₀ : (⟨t, cs, .launched w procs cmdline⟩ : Shell).Launched w.pgid procs := hat
      refine ⟨hla₀.ne, hla₀.length_le, hla₀.nodup, fun p => ?_, fun j hj => hg ▸ hla₀.group j hj⟩
      rw [← hla₀.members p, hm, ← hg]
      exact hp.mem_iff.symm
    rcases res with _ | res
    · cases hs
      exact ⟨hf', hla⟩
    · cases hs
      refine inv_endLaunch _ hf' hla fun hres => ?_
      exact (hG (congrArg some hres)).imp_right And.right
  | resumed v job timeout =>
    cases hw
    have hcov : ∀ p, (p, some w'.pgid) ∈ cs'.map Child.member ++ w'.reaped.map (·, some w'.pgid) →
        t.Records job p := by
      intro p hmem
      refine hat p ?_
      rw [hm, ← hg]
      exact hp.mem_iff.2 hmem
    rcases res with _ | res
    · cases hs
      exact ⟨hf', hcov⟩
    · cases hs
      refine inv_endResume _ hf' hcov fun hres => ?_
      refine (hG (congrArg some hres)).resolve_right ?_
      rintro ⟨⟨_, _, hc⟩, -⟩
      cases hc

/-- A child changes its status. -/
theorem Shell.Inv.change {c : Place} (h : (⟨t, cs, c⟩ : Shell).Inv) (pid : ℕ) (st : Status) :
    (⟨t, cs.map (Child.change pid st), c⟩ : Shell).Inv := by
  have hm : (⟨t, cs.map (Child.change pid st), c⟩ : Shell).members =
      (⟨t, cs, c⟩ : Shell).members := by
    rw [members, members, members_change]
  refine ⟨hm ▸ h.fits, ?_⟩
  have hat := h.atPlace
  cases c with
  | main d => cases d <;> exact hat
  | launched w procs cmdline =>
    exact ⟨hat.ne, hat.length_le, hat.nodup, hm ▸ hat.members, hat.group⟩
  | resuming r => exact fun hne p hp => hat hne p (hm ▸ hp)
  | resumed w job timeout => exact fun p hp => hat p (hm ▸ hp)

/-- The job `exec_resume` copies is the first one with the number. -/
theorem JobTable.find?_getActivities {m : ℕ} {a : ActivityJob}
    (h : (t.getActivities m).find? (·.jobNumber = n) = some a) :
    ∃ j, t.jobs.find? (Job.hasNumber n) = some j ∧ a = j.activity := by
  rw [getActivities, List.find?_map, Option.map_eq_some_iff] at h
  obtain ⟨j, hj, rfl⟩ := h
  refine ⟨j, ?_, rfl⟩
  -- the jobs after the first `m` come later in the table
  have hall : (t.jobs.filter Job.active).find? ((·.jobNumber = n) ∘ Job.activity) = some j := by
    rw [← List.take_append_drop m (t.jobs.filter Job.active), List.find?_append, hj, Option.some_or]
  rw [List.find?_filter] at hall
  rw [← hall]
  congr 1
  ext j
  simp [Job.hasNumber, Job.activity]

/-- `exec_resume` copies a job of the table. -/
theorem Shell.Inv.resume {c : Place} {s' : Shell} (h : (⟨t, cs, c⟩ : Shell).Inv) {job : ℤ}
    {fg timeout : Bool} (hs : Shell.step ⟨t, cs, c⟩ (.resume job fg timeout) = some s') :
    s'.Inv := by
  simp only [Shell.step] at hs
  split at hs
  case isFalse => cases hs
  rename_i hc
  cases hc
  have hf := h.fits_idle rfl
  rcases ha : (t.getActivities maxJobs).find? (·.jobNumber = job) with _ | a <;>
    rw [ha] at hs <;> cases hs
  · exact h
  · refine ⟨h.fits, fun hne p hp => ?_⟩
    obtain ⟨j, hj, rfl⟩ := JobTable.find?_getActivities ha
    have hmem := List.mem_of_find?_eq_some hj
    have hnum := List.find?_some hj
    simp only [Job.hasNumber, Bool.and_eq_true, decide_eq_true_eq] at hnum
    rw [members_eq rfl] at hp
    refine ⟨j, ?_, hf.tracks.covers j.group (List.mem_map_of_mem hmem) (fun hnil => hne ?_) p hp⟩
    · show t.jobs.find? (Job.hasNumber j.jobNumber) = some j
      rw [hnum.2, hj]
    · rw [show j.group.live = j.live from rfl, Job.live, List.map_eq_nil_iff] at hnil
      simp [Job.activity, hnil]

/-- `exec_resume` goes on with the job it has copied. -/
theorem Shell.Inv.proceed {c : Place} {s' : Shell} (h : (⟨t, cs, c⟩ : Shell).Inv)
    (hs : Shell.step ⟨t, cs, c⟩ .proceed = some s') : s'.Inv := by
  simp only [Shell.step] at hs
  cases c with
  | main d | launched w procs cmdline | resumed w job timeout => cases hs
  | resuming r =>
    have hf := h.fits
    rw [members_eq rfl] at hf
    simp only at hs
    split at hs
    · cases hs
      exact .main (hf.removeJobByNumber r.job)
    · rename_i hne
      obtain ⟨hmark, -⟩ := hf.markJob .running r.job
      split at hs
      · cases hs
        refine ⟨?_, fun p hp => ?_⟩
        · rw [members_eq rfl]
          exact hmark
        · rw [members_eq rfl, ← members_eq (t := t) (c := .resuming r) rfl] at hp
          exact (h.atPlace hne p hp).markJob .running r.job
      · cases hs
        exact .main hmark

/-- A foreground wait is told of a process. -/
theorem Shell.Inv.wait {c : Place} {s' : Shell} (h : (⟨t, cs, c⟩ : Shell).Inv) {pid : ℕ} {st : Status}
    (hG : (⟨t, cs, c⟩ : Shell).StopsWhole (.wait pid st))
    (hs : Shell.step ⟨t, cs, c⟩ (.wait pid st) = some s') : s'.Inv := by
  simp only [Shell.step] at hs
  rcases hw : c.wait? with _ | w <;> rw [hw] at hs
  · cases hs
  simp only at hs
  split at hs
  case isFalse => cases hs
  rename_i hr
  obtain ⟨hr, hst⟩ := hr
  have hm : (⟨t, cs, c⟩ : Shell).members = cs.map Child.member ++ w.reaped.map (·, some w.pgid) := by
    rw [members, Place.reaped, hw]
  by_cases ht : st.terminated
  · obtain ⟨hg, hre, hres⟩ := w.got_terminated pid ht
    refine h.waited hw hg ?_ (fun h => absurd h hres) hs
    have hn : ((cs.map Child.member).map Prod.fst).Nodup := by
      have := h.fits.tracks.members
      rw [hm, List.map_append] at this
      exact (List.nodup_append.1 this).1
    -- the child moves from the children to what this wait has reaped
    rw [hre, List.map_append, List.map_singleton]
    rw [← List.append_assoc]
    exact ((perm_collectReport hn hr ht).append_right _).trans
      (List.perm_append_singleton _ _).symm
  · obtain rfl : st = .stopped := by cases st <;> simp_all [Status.terminated]
    refine h.waited hw rfl ?_ (fun _ => ?_) hs
    · rw [members_collectReport, if_neg ht]
      exact .refl _
    · cases c with
      | main d | resuming r => cases hw
      | launched v procs cmdline =>
        cases hw
        exact hG.imp_right fun hfull => ⟨⟨procs, cmdline, rfl⟩, hfull⟩
      | resumed v job timeout =>
        cases hw
        exact .inl hG

/-- **A step that stops no pipeline partly reaped keeps the invariant.** -/
theorem Shell.Inv.step {s s' : Shell} {a : ShellAct} (h : s.Inv) (hG : s.StopsWhole a)
    (hs : s.step a = some s') : s'.Inv := by
  obtain ⟨t, cs, c⟩ := s
  cases a with
  | helper pid =>
    simp only [Shell.step] at hs
    split at hs
    case isFalse => cases hs
    rename_i hc
    obtain ⟨rfl, hu⟩ := hc
    cases hs
    have hf := h.fits_idle rfl
    refine .main ⟨hf.wf, ?_⟩
    rw [List.map_append]
    refine hf.tracks.fork (List.nodup_singleton pid) ?_ nofun
    simp only [List.mem_singleton, List.mem_map]
    rintro _ rfl ⟨_, ⟨d, hd, rfl⟩, hdp⟩
    exact (hu d hd).1 hdp
  | change pid st =>
    cases hs
    exact h.change pid st
  | deliver pid st =>
    simp only [Shell.step] at hs
    split at hs
    · cases hs
      exact h.deliver pid st (And.left ‹_›)
    · cases hs
  | launch stages cmdline =>
    simp only [Shell.step] at hs
    split at hs
    case isFalse => cases hs
    rename_i hc
    obtain ⟨rfl, hl⟩ := hc
    have hf := h.fits_idle rfl
    rcases hg : stages.head?.bind Prod.fst with _ | g <;> rw [hg] at hs <;> cases hs
    · exact .main (hf.launch hl)
    · refine ⟨?_, hf.launched hl hg _ rfl⟩
      rw [members_eq rfl]
      exact hf.launch hl
  | launchBackground stages cmdline =>
    simp only [Shell.step] at hs
    split at hs
    case isFalse => cases hs
    rename_i hc
    obtain ⟨rfl, hl⟩ := hc
    have hf := h.fits_idle rfl
    rcases hg : stages.head?.bind Prod.fst with _ | g <;> rw [hg] at hs <;> cases hs
    · exact .main (hf.launch hl)
    · have hla := hf.launched hl hg (.main .idle) rfl
      refine .main ((hf.launch hl).registerJob .running _ cmdline hla.ne hla.length_le hla.nodup
        ?_ hla.group)
      simpa only [members, Place.reaped, Place.wait?, List.append_nil] using hla.members
  | resume job fg timeout => exact h.resume hs
  | proceed => exact h.proceed hs
  | wait pid st => exact h.wait hG hs
  | waitNone =>
    simp only [Shell.step] at hs
    rcases hw : c.wait? with _ | w <;> rw [hw] at hs
    · cases hs
    simp only at hs
    split at hs
    · refine h.waited hw rfl (.refl _) (fun hres => ?_) hs
      rw [Wait.result] at hres
      split at hres <;> cases hres
    · cases hs
  | alarm =>
    simp only [Shell.step] at hs
    split at hs
    · exact h.waited rfl rfl (.refl _) (fun hres => by cases hres) hs
    · cases hs
  | drain =>
    simp only [Shell.step] at hs
    cases c with
    | main d =>
      cases hs
      exact h.drain
    | launched w procs cmdline | resuming r | resumed w job timeout => cases hs

/-! ## A pipeline partly reaped -/

/-- What a foreground wait has reaped is no child any more. -/
theorem Shell.Inv.not_mem_of_reaped {c : Place} (h : (⟨t, cs, c⟩ : Shell).Inv)
    (hw : c.wait? = some w) {p : ℕ} (hp : p ∈ w.reaped) : p ∉ cs.map Child.pid := by
  have hn := h.fits.tracks.members
  rw [members, Place.reaped, hw, List.map_append, List.nodup_append] at hn
  intro hmem
  refine hn.2.2 p ?_ p ?_ rfl
  · rw [List.map_map]
    exact hmem
  · rw [List.map_map]
    simpa [Function.comp_def] using hp

theorem pids_collectReport_stopped (pid : ℕ) (cs : List Child) :
    (collectReport pid .stopped cs).map Child.pid = cs.map Child.pid := by
  have h := congrArg (List.map Prod.fst) (members_collectReport pid .stopped cs)
  rw [if_neg (by decide), List.map_map, List.map_map] at h
  exact h

/-- **A pipeline that is stopped after it was partly reaped** leaves the table
    wrong at the prompt. -/
theorem Shell.Inv.step_fails {s s' : Shell} {a : ShellAct} (h : s.Inv) (hG : ¬s.StopsWhole a)
    (hs : s.step a = some s') : ¬(s'.AtPrompt → s'.Recorded) := by
  obtain ⟨t, cs, c⟩ := s
  cases a with
  | wait pid st =>
    cases st with
    | exited | signaled | continued => exact absurd trivial hG
    | stopped =>
      simp only [Shell.step] at hs
      cases c with
      | main d | resuming r => exact absurd trivial hG
      | launched w procs cmdline =>
        simp only [StopsWhole, not_or] at hG
        obtain ⟨p, hp⟩ := List.exists_mem_of_ne_nil _ hG.1
        have hla : (⟨t, cs, .launched w procs cmdline⟩ : Shell).Launched w.pgid procs := h.atPlace
        have hmem : p ∈ procs.map Prod.fst := by
          refine (hla.members p).1 (List.mem_append_right _ ?_)
          exact List.mem_map.2 ⟨p, hp, rfl⟩
        simp only [Place.wait?] at hs
        split at hs
        case isFalse => cases hs
        cases hs
        intro hrec
        refine h.not_mem_of_reaped rfl hp ?_
        -- the registered job has the reaped process among its own
        have hlive :=
          Job.live_new hla.length_le t.registered t.nextJobNumber .stopped w.pgid cmdline
        obtain ⟨q, hq, hqex, rfl⟩ := Job.mem_live.1 (hlive ▸ hmem)
        have hun := (hrec rfl).unreaped
          (Job.new t.registered t.nextJobNumber .stopped w.pgid procs cmdline)
          (by simp [endLaunch, Wait.got, JobTable.registerStoppedJob, JobTable.registerJob, hG.2])
          q hq hqex
        rwa [← pids_collectReport_stopped pid cs]
      | resumed w job timeout =>
        obtain ⟨p, hp⟩ := List.exists_mem_of_ne_nil _ hG
        have hrecords : t.Records job p :=
          h.atPlace p (List.mem_append_right _ (List.mem_map.2 ⟨p, hp, rfl⟩))
        simp only [Place.wait?] at hs
        split at hs
        case isFalse => cases hs
        cases hs
        intro hrec
        refine h.not_mem_of_reaped rfl hp ?_
        -- marking the job leaves its processes recorded
        obtain ⟨k, hk, hkp⟩ := hrecords.markJob .stopped job
        obtain ⟨q, hq, hqex, rfl⟩ := Job.mem_live.1 hkp
        have hun := (hrec rfl).unreaped k (List.mem_of_find?_eq_some hk) q hq hqex
        rwa [← pids_collectReport_stopped pid cs]
  | helper | change | deliver | launch | launchBackground | resume | proceed | waitNone | alarm
  | drain => exact absurd trivial hG

/-- **The table is right at every prompt** of a run iff no foreground wait is
    told of a stop after it has reaped a process of the group. -/
theorem recorded_iff {as : List ShellAct} (hr : (run Shell.step as .init).isSome) :
    Always Shell.step (fun s => s.AtPrompt → s.Recorded) as .init ↔
      Guarded Shell.step Shell.StopsWhole as .init :=
  always_iff_guarded (fun _ h => h.recorded) (fun _ _ _ h hG hs => h.step hG hs)
    (fun _ _ _ h hG hs => h.step_fails hG hs) Shell.inv_init hr

/-- A pipeline of two is stopped as a whole and recorded. -/
theorem recorded_iff_stopped :
    (run Shell.step [.launch [(some 5, str "a"), (some 6, str "b")] (str "a | b"),
      .change 6 .stopped, .wait 6 .stopped] .init).isSome ∧
    Always Shell.step (fun s => s.AtPrompt → s.Recorded)
      [.launch [(some 5, str "a"), (some 6, str "b")] (str "a | b"), .change 6 .stopped,
        .wait 6 .stopped] .init := by
  refine ⟨rfl, (recorded_iff rfl).2 ⟨trivial, fun _ h => ?_⟩⟩
  cases h
  refine ⟨trivial, fun _ h => ?_⟩
  cases h
  exact ⟨.inl rfl, fun _ _ => trivial⟩

/-- The first process of a pipeline exits and is reaped, the second is
    stopped: at the prompt the table records both as not exited. -/
theorem stopped_after_exit_not_recorded : ∃ s,
    run Shell.step [.launch [(some 5, str "a"), (some 6, str "b")] (str "a | b"),
      .change 5 .exited, .wait 5 .exited, .change 6 .stopped, .wait 6 .stopped] .init = some s ∧
    s.AtPrompt ∧ ¬s.Recorded := by
  refine ⟨_, rfl, rfl, fun h => ?_⟩
  have hun := h.unreaped _ (.head _) _ (.head _) rfl
  revert hun
  decide

end CShell
