/-
  C-Shell formalization — the process group of a pipeline (`run_pipeline`,
  `run_pipeline_background`).

  The shell forks the stages one after the other, and both the shell and the new process
  call `setpgid`.  Here the shell and the processes take their steps in any order: a
  stage may run its program or end before the shell has called `setpgid` for it, and the
  first stage may be dead when the others join its group.  `SIGCHLD` is blocked, so that
  the shell reaps nothing meanwhile.

  * `stages_in_group`: a stage that is past its own `setpgid` is in the group of the
    first, and only stages and their descendants are;
  * `launch_refines`: the whole loop does what one step of `Shell.step` does.
-/
import CShell.Shell.Recorded

namespace CShell

open Lib

/-! ## Processes and `setpgid` -/

/-- The code a process runs. -/
inductive ProcCode where
  /-- a stage before its `setpgid` -/
  | forked
  /-- a stage after its `setpgid`, before `execv` or `_exit` -/
  | joined
  | program
  deriving DecidableEq, Repr

/-- A process, as far as groups are concerned. -/
structure Proc where
  pid : ℕ
  parent : ℕ
  pgid : ℕ
  code : ProcCode
  /-- it has ended and is not reaped -/
  dead : Bool
  /-- a stage of the pipeline that is launched, or a descendant of one -/
  job : Bool
  deriving DecidableEq, Repr

/-- `setpgid(pid, pgid)` of a process: the process it is for and its new group, or `none`
    where the call fails.  `none` for `pgid` is -1. -/
def setpgidTarget (caller pid : ℕ) (pgid : Option ℕ) (procs : List Proc) : Option (ℕ × ℕ) := do
  -- EINVAL
  let pgid ← pgid
  let pid := if pid = 0 then caller else pid
  let pgid := if pgid = 0 then pid else pgid
  -- ESRCH
  let x ← procs.find? (·.pid = pid)
  if pid ≠ caller ∧ x.parent ≠ caller then none
  -- EACCES
  else if pid ≠ caller ∧ x.code = .program then none
  -- EPERM
  else if pgid ≠ pid ∧ ∀ y ∈ procs, y.pgid ≠ pgid then none
  else some (pid, pgid)

/-- Put the process with this pid into the group. -/
def Proc.setGroup (pid pgid : ℕ) (x : Proc) : Proc :=
  if x.pid = pid then { x with pgid := pgid } else x

/-- `setpgid`; if it fails nothing changes. -/
def setpgid (caller pid : ℕ) (pgid : Option ℕ) (procs : List Proc) : List Proc :=
  match setpgidTarget caller pid pgid procs with
  | some t => procs.map (Proc.setGroup t.1 t.2)
  | none => procs

/-- A number in use neither for a process nor for a group. -/
def FreshPid (procs : List Proc) (pid : ℕ) : Prop :=
  pid ≠ 0 ∧ ∀ x ∈ procs, x.pid ≠ pid ∧ x.pgid ≠ pid

instance (procs : List Proc) (pid : ℕ) : Decidable (FreshPid procs pid) :=
  inferInstanceAs (Decidable (_ ∧ _))

/-! ## The loop that forks the stages -/

/-- The processes while the shell launches a pipeline. -/
structure Launch where
  procs : List Proc
  /-- `children[0]` up to the last `fork`; `none` is -1 -/
  children : List (Option ℕ)
  /-- the shell has not called `setpgid` yet for the last of them -/
  joining : Bool
  /-- the stages that are not forked yet -/
  todo : ℕ
  deriving DecidableEq, Repr

/-- Before the first `fork`. -/
def Launch.start (procs : List Proc) (stages : ℕ) : Launch := ⟨procs, [], false, stages⟩

/-- `children[0]`, once it is set. -/
def Launch.leader (s : Launch) : Option ℕ := s.children.head?.join

/-- What can happen during the launch. -/
inductive LaunchAct where
  /-- the shell forks the next stage; `none` if that fails -/
  | fork (pid : Option ℕ)
  /-- the shell calls `setpgid` for the stage it has forked -/
  | setpgid
  /-- a stage calls `setpgid` for itself -/
  | child (pid : ℕ)
  /-- a stage calls `execv` -/
  | exec (pid : ℕ)
  | exit (pid : ℕ)
  /-- a program forks -/
  | spawn (pid new : ℕ)
  /-- a program, not the shell, reaps a process -/
  | reap (pid : ℕ)
  deriving DecidableEq, Repr

section
variable (shell shellPgid : ℕ)

/-- One step of the shell or of another process. -/
def Launch.step (s : Launch) : LaunchAct → Option Launch
  | .fork none =>
    if s.joining = false ∧ s.todo ≠ 0 then
      some { s with children := s.children ++ [none], todo := s.todo - 1 }
    else none
  | .fork (some pid) =>
    if s.joining = false ∧ s.todo ≠ 0 ∧ FreshPid s.procs pid then
      some {
        procs := s.procs ++ [⟨pid, shell, shellPgid, .forked, false, true⟩]
        children := s.children ++ [some pid]
        joining := true
        todo := s.todo - 1 }
    else none
  | .setpgid =>
    match s.joining, s.children.getLast? with
    | true, some (some pid) =>
      some { s with procs := CShell.setpgid shell pid s.leader s.procs, joining := false }
    | _, _ => none
  | .child pid =>
    if ∃ x ∈ s.procs, x.pid = pid ∧ x.parent = shell ∧ x.job ∧ x.code = .forked ∧ !x.dead then
      -- stage 0 does not read `children[0]`
      let pgid := if s.leader = some pid then some 0 else s.leader
      some { s with procs := (CShell.setpgid pid 0 pgid s.procs).map fun x =>
        if x.pid = pid then { x with code := .joined } else x }
    else none
  | .exec pid =>
    if ∃ x ∈ s.procs, x.pid = pid ∧ x.code = .joined ∧ !x.dead then
      some { s with procs := s.procs.map fun x =>
        if x.pid = pid then { x with code := .program } else x }
    else none
  | .exit pid =>
    if pid ≠ shell then
      some { s with procs := s.procs.map fun x =>
        if x.pid = pid then { x with dead := true } else x }
    else none
  | .spawn pid new =>
    match s.procs.find? fun x => x.pid = pid ∧ x.code = .program ∧ !x.dead with
    | some x =>
      if pid ≠ shell ∧ FreshPid s.procs new then
        some { s with procs := s.procs ++ [⟨new, pid, x.pgid, .program, false, x.job⟩] }
      else none
    | none => none
  | .reap pid =>
    some { s with procs := s.procs.filter fun x => !(x.pid = pid ∧ x.dead ∧ x.parent ≠ shell) }

/-- The children of the shell. -/
def Launch.kids (s : Launch) : List Proc := s.procs.filter (·.parent = shell)

/-- A child as the table of jobs sees it: the shell's own group is no job. -/
def Proc.member (x : Proc) : ℕ × Option ℕ :=
  (x.pid, if x.pgid = shellPgid then none else some x.pgid)

/-- The processes when the launch begins. -/
structure LaunchBase (procs : List Proc) : Prop where
  nodup : (procs.map Proc.pid).Nodup
  shell : ∃ x ∈ procs, x.pid = shell ∧ x.pgid = shellPgid ∧ x.dead = false
  job : ∀ x ∈ procs, x.job = false

end

/-! ## `setpgid` for a stage -/

section
variable {procs : List Proc} {x : Proc} {caller pid g l : ℕ}

theorem find?_pid (hn : (procs.map Proc.pid).Nodup) (hx : x ∈ procs) :
    procs.find? (·.pid = x.pid) = some x := by
  induction procs with
  | nil => cases hx
  | cons y procs ih =>
    rw [List.map_cons, List.nodup_cons] at hn
    rw [List.find?_cons]
    rcases List.mem_cons.1 hx with rfl | hx
    · simp
    · have hne : y.pid ≠ x.pid := fun h => hn.1 (h ▸ List.mem_map_of_mem hx)
      simp [hne, ih hn.2 hx]

/-- A call for a process that has run no program succeeds, if the group is the process's
    own or has a member. -/
theorem setpgid_eq (hn : (procs.map Proc.pid).Nodup) (hx : x ∈ procs)
    (hpid : (if pid = 0 then caller else pid) = x.pid) (hg : (if g = 0 then x.pid else g) = l)
    (hcall : x.pid = caller ∨ x.parent = caller ∧ x.code ≠ .program)
    (hmem : l = x.pid ∨ ∃ y ∈ procs, y.pgid = l) :
    setpgid caller pid (some g) procs = procs.map (Proc.setGroup x.pid l) := by
  have htarget : setpgidTarget caller pid (some g) procs = some (x.pid, l) := by
    simp only [setpgidTarget, Option.bind_eq_bind, Option.bind_some, hpid, hg, find?_pid hn hx]
    rw [if_neg, if_neg, if_neg]
    · rintro ⟨hne, hall⟩
      rcases hmem with rfl | ⟨y, hy, rfl⟩
      · exact hne rfl
      · exact hall y hy rfl
    · rintro ⟨hne, hp⟩
      rcases hcall with h | ⟨-, h⟩
      · exact hne h
      · exact h hp
    · rintro ⟨hne, hp⟩
      rcases hcall with h | ⟨h, -⟩
      · exact hne h
      · exact hp h
  rw [setpgid, htarget]

/-- A call for a child that has run a program changes nothing. -/
theorem setpgid_program (hn : (procs.map Proc.pid).Nodup) (hx : x ∈ procs) (hpid : x.pid ≠ 0)
    (hne : x.pid ≠ caller) (hp : x.code = .program) (pgid : Option ℕ) :
    setpgid caller x.pid pgid procs = procs := by
  have htarget : setpgidTarget caller x.pid pgid procs = none := by
    cases pgid with
    | none => rfl
    | some g =>
      simp only [setpgidTarget, Option.bind_eq_bind, Option.bind_some, if_neg hpid, find?_pid hn hx]
      by_cases hpar : x.parent = caller
      · rw [if_neg (fun h => h.2 hpar), if_pos ⟨hne, hp⟩]
      · rw [if_pos ⟨hne, hpar⟩]
  rw [setpgid, htarget]

/-- -1 is no group. -/
theorem setpgid_none : setpgid caller pid none procs = procs := rfl

end

/-! ## The invariant -/

/-- The children of the shell are those it had, in their groups, and the stages that are
    forked.  A stage is in the group of the first one, but for the last stage as long as
    neither the stage nor the shell has called `setpgid` for it. -/
structure Launch.Inv (shell shellPgid : ℕ) (s₀ s : Launch) (old new : List Proc) : Prop where
  kids : s.kids shell = old ++ new
  olds : old.map (Proc.member shellPgid) = (s₀.kids shell).map (Proc.member shellPgid)
  news : new.map Proc.pid = s.children.filterMap id
  nodup : (s.procs.map Proc.pid).Nodup
  self : ∃ x ∈ s.procs, x.pid = shell ∧ x.pgid = shellPgid ∧ x.dead = false ∧ x.job = false
  alone : ∀ x ∈ old, x.job = false
  stage : ∀ x ∈ new, x.job = true ∧ x.pid ≠ 0
  noLeader : s.leader = none → ∀ x ∈ new, x.pgid = shellPgid
  group : ∀ l, s.leader = some l → ∀ x ∈ new, x.pgid = l ∨ x.pgid = shellPgid ∧
    x.code = .forked ∧ s.joining = true ∧ s.children.getLast? = some (some x.pid)
  lead : ∀ l, s.leader = some l → s.joining = false ∨ 1 < s.children.length →
    ∃ x ∈ new, x.pid = l ∧ x.pgid = l
  only : ∀ l, s.leader = some l → ∀ x ∈ s.procs, x.pgid = l → x.job = true
  other : ∀ l, s.leader = some l → l ≠ shellPgid
  apart : ∀ y ∈ old, ∀ x ∈ new, y.pgid ≠ x.pid

/-- A change of the processes, each on its own, that keeps who they are. -/
structure Proc.Keeps (f : Proc → Proc) : Prop where
  pid : ∀ x, (f x).pid = x.pid
  parent : ∀ x, (f x).parent = x.parent
  job : ∀ x, (f x).job = x.job

namespace Launch

variable {shell shellPgid : ℕ} {s₀ s s' : Launch} {old new : List Proc} {x : Proc} {l : ℕ}

theorem kids_map {f : Proc → Proc} (hf : Proc.Keeps f) :
    kids shell { s with procs := s.procs.map f } = (s.kids shell).map f := by
  rw [kids, kids, List.filter_map]
  congr 1
  refine List.filter_congr fun x _ => ?_
  rw [Function.comp_apply, hf.parent]

theorem map_pid {f : Proc → Proc} (hf : Proc.Keeps f) (xs : List Proc) :
    (xs.map f).map Proc.pid = xs.map Proc.pid := by
  rw [List.map_map]
  exact List.map_congr_left fun x _ => hf.pid x

namespace Inv

theorem mem_kids (h : Inv shell shellPgid s₀ s old new) (hx : x ∈ old ∨ x ∈ new) :
    x ∈ s.procs ∧ x.parent = shell := by
  have hkid : x ∈ s.kids shell := by
    rw [h.kids]
    exact List.mem_append.2 hx
  exact ⟨(List.mem_filter.1 hkid).1, of_decide_eq_true (List.mem_filter.1 hkid).2⟩

theorem mem_new (h : Inv shell shellPgid s₀ s old new) (hx : x ∈ s.procs)
    (hp : x.parent = shell) (hj : x.job = true) : x ∈ new := by
  have hkid : x ∈ s.kids shell := List.mem_filter.2 ⟨hx, decide_eq_true hp⟩
  rw [h.kids] at hkid
  rcases List.mem_append.1 hkid with ho | hn
  · rw [h.alone x ho] at hj
    cases hj
  · exact hn

theorem eq_of_pid (h : Inv shell shellPgid s₀ s old new) {y : Proc} (hx : x ∈ s.procs)
    (hy : y ∈ s.procs) (hpid : x.pid = y.pid) : x = y :=
  List.inj_on_of_nodup_map h.nodup hx hy hpid

theorem ne_shell (h : Inv shell shellPgid s₀ s old new) (hx : x ∈ new) : x.pid ≠ shell := by
  intro heq
  obtain ⟨y, hy, hpid, -, -, hjob⟩ := h.self
  have hxy := h.eq_of_pid (h.mem_kids (.inr hx)).1 hy (heq.trans hpid.symm)
  rw [← hxy, (h.stage x hx).1] at hjob
  cases hjob

theorem exists_stage (h : Inv shell shellPgid s₀ s old new) {pid : ℕ}
    (hpid : some pid ∈ s.children) : ∃ x ∈ new, x.pid = pid := by
  have hmem : pid ∈ s.children.filterMap id := List.mem_filterMap.2 ⟨some pid, hpid, rfl⟩
  rw [← h.news] at hmem
  exact List.mem_map.1 hmem

theorem exists_leader (h : Inv shell shellPgid s₀ s old new) (hl : s.leader = some l) :
    ∃ x ∈ new, x.pid = l :=
  h.exists_stage (List.mem_of_mem_head? (Option.join_eq_some_iff.1 hl))

/-- There is a process in the group of the first stage, when another one joins it. -/
theorem exists_member (h : Inv shell shellPgid s₀ s old new) (hl : s.leader = some l)
    (hx : x ∈ new) : l = x.pid ∨ ∃ y ∈ s.procs, y.pgid = l := by
  by_cases hlen : 1 < s.children.length
  · obtain ⟨y, hy, -, hpg⟩ := h.lead l hl (.inr hlen)
    exact .inr ⟨y, (h.mem_kids (.inr hy)).1, hpg⟩
  · left
    have hmem : x.pid ∈ s.children.filterMap id := by
      rw [← h.news]
      exact List.mem_map_of_mem hx
    have hone := Option.join_eq_some_iff.1 hl
    rcases hc : s.children with _ | ⟨c, _ | ⟨d, cs⟩⟩
    · rw [hc] at hmem
      cases hmem
    · rw [hc] at hmem hone
      cases hone
      have heq : x.pid = l := by simpa using hmem
      exact heq.symm
    · rw [hc] at hlen
      exact absurd (by simp) hlen

theorem old_stays (h : Inv shell shellPgid s₀ s old new) {f : Proc → Proc}
    (hmove : ∀ x ∈ s.procs, (f x).pgid = x.pgid ∨ x ∈ new ∧ s.leader = some (f x).pgid)
    (hx : x ∈ old) : (f x).pgid = x.pgid := by
  rcases hmove x (h.mem_kids (.inl hx)).1 with heq | ⟨hnew, -⟩
  · exact heq
  · have hjob := h.alone x hx
    rw [(h.stage x hnew).1] at hjob
    cases hjob

/-- Steps of processes: a stage may move to the group of the first one, and has to before
    it is past its `setpgid`. -/
theorem map (h : Inv shell shellPgid s₀ s old new) {f : Proc → Proc} (hf : Proc.Keeps f)
    (hdead : ∀ x, x.pid = shell → (f x).dead = x.dead)
    (hmove : ∀ x ∈ s.procs, (f x).pgid = x.pgid ∨ x ∈ new ∧ s.leader = some (f x).pgid)
    (hcode : ∀ l, s.leader = some l → ∀ x ∈ new, x.code = .forked →
      (f x).code = .forked ∨ (f x).pgid = l) :
    Inv shell shellPgid s₀ { s with procs := s.procs.map f } (old.map f) (new.map f) where
  kids := by rw [kids_map hf, h.kids, List.map_append]
  olds := by
    rw [← h.olds, List.map_map]
    refine List.map_congr_left fun x hx => ?_
    rw [Function.comp_apply, Proc.member, Proc.member, hf.pid, h.old_stays hmove hx]
  news := by rw [map_pid hf, h.news]
  nodup := by
    rw [map_pid hf]
    exact h.nodup
  self := by
    obtain ⟨x, hx, hpid, hpg, hd, hj⟩ := h.self
    refine ⟨f x, List.mem_map_of_mem hx, (hf.pid x).trans hpid, ?_, (hdead x hpid).trans hd,
      (hf.job x).trans hj⟩
    rcases hmove x hx with heq | ⟨hnew, -⟩
    · exact heq.trans hpg
    · exact absurd hpid (h.ne_shell hnew)
  alone := by
    intro y hy
    obtain ⟨x, hx, rfl⟩ := List.mem_map.1 hy
    exact (hf.job x).trans (h.alone x hx)
  stage := by
    intro y hy
    obtain ⟨x, hx, rfl⟩ := List.mem_map.1 hy
    rw [hf.job, hf.pid]
    exact h.stage x hx
  noLeader := by
    intro hl y hy
    obtain ⟨x, hx, rfl⟩ := List.mem_map.1 hy
    rcases hmove x (h.mem_kids (.inr hx)).1 with heq | ⟨-, hsome⟩
    · exact heq.trans (h.noLeader hl x hx)
    · rw [show s.leader = none from hl] at hsome
      cases hsome
  group := by
    intro l hl y hy
    obtain ⟨x, hx, rfl⟩ := List.mem_map.1 hy
    rw [hf.pid]
    rcases hmove x (h.mem_kids (.inr hx)).1 with heq | ⟨-, hsome⟩
    · rcases h.group l hl x hx with hpg | ⟨hpg, hforked, hrest⟩
      · exact .inl (heq.trans hpg)
      · rcases hcode l hl x hx hforked with hc | hin
        · exact .inr ⟨heq.trans hpg, hc, hrest⟩
        · exact .inl hin
    · exact .inl (Option.some.inj (hsome.symm.trans hl))
  lead := by
    intro l hl hat
    obtain ⟨x, hx, hpid, hpg⟩ := h.lead l hl hat
    refine ⟨f x, List.mem_map_of_mem hx, (hf.pid x).trans hpid, ?_⟩
    rcases hmove x (h.mem_kids (.inr hx)).1 with heq | ⟨-, hsome⟩
    · exact heq.trans hpg
    · exact Option.some.inj (hsome.symm.trans hl)
  only := by
    intro l hl y hy hpg
    obtain ⟨x, hx, rfl⟩ := List.mem_map.1 hy
    rcases hmove x hx with heq | ⟨hnew, -⟩
    · exact (hf.job x).trans (h.only l hl x hx (heq.symm.trans hpg))
    · exact (hf.job x).trans (h.stage x hnew).1
  other := h.other
  apart := by
    intro y' hy' x' hx'
    obtain ⟨y, hy, rfl⟩ := List.mem_map.1 hy'
    obtain ⟨x, hx, rfl⟩ := List.mem_map.1 hx'
    rw [h.old_stays hmove hy, hf.pid]
    exact h.apart y hy x hx

/-- The shell is past its `setpgid`. -/
theorem joined (h : Inv shell shellPgid s₀ s old new)
    (hin : ∀ l, s.leader = some l → ∀ x ∈ new, x.pgid = l) :
    Inv shell shellPgid s₀ { s with joining := false } old new where
  kids := h.kids
  olds := h.olds
  news := h.news
  nodup := h.nodup
  self := h.self
  alone := h.alone
  stage := h.stage
  noLeader := h.noLeader
  group := fun l hl x hx => .inl (hin l hl x hx)
  lead := by
    intro l hl _
    obtain ⟨x, hx, rfl⟩ := h.exists_leader hl
    exact ⟨x, hx, rfl, hin _ hl x hx⟩
  only := h.only
  other := h.other
  apart := h.apart

/-! ### The steps -/

theorem fork_none (h : Inv shell shellPgid s₀ s old new) (hj : s.joining = false) (todo : ℕ) :
    Inv shell shellPgid s₀ { s with children := s.children ++ [none], todo := todo } old new := by
  have hleader : ∀ l, leader { s with children := s.children ++ [none], todo := todo } = some l →
      s.leader = some l := by
    intro l hl
    rw [leader, Option.join_eq_some_iff] at hl
    rw [leader, Option.join_eq_some_iff]
    rcases hc : s.children with _ | ⟨c, cs⟩
    · simp [hc] at hl
    · simpa [hc] using hl
  have hnone : leader { s with children := s.children ++ [none], todo := todo } = none →
      ∀ x ∈ new, x.pgid = shellPgid := by
    intro hl x hx
    rcases hc : s.children with _ | ⟨c, cs⟩
    · have hnil := h.news
      rw [hc, List.filterMap_nil, List.map_eq_nil_iff] at hnil
      rw [hnil] at hx
      cases hx
    · refine h.noLeader ?_ x hx
      simpa [leader, hc] using hl
  refine ⟨h.kids, h.olds, ?_, h.nodup, h.self, h.alone, h.stage, hnone, ?_, ?_, ?_, ?_, h.apart⟩
  · rw [h.news, List.filterMap_append]
    simp
  · intro l hl x hx
    rcases h.group l (hleader l hl) x hx with hpg | ⟨-, -, hjoin, -⟩
    · exact .inl hpg
    · rw [hj] at hjoin
      cases hjoin
  · exact fun l hl _ => h.lead l (hleader l hl) (.inl hj)
  · exact fun l hl => h.only l (hleader l hl)
  · exact fun l hl => h.other l (hleader l hl)

theorem fork_some (h : Inv shell shellPgid s₀ s old new) (hj : s.joining = false) {pid : ℕ}
    (hfresh : FreshPid s.procs pid) (todo : ℕ) :
    Inv shell shellPgid s₀ ⟨s.procs ++ [⟨pid, shell, shellPgid, .forked, false, true⟩],
        s.children ++ [some pid], true, todo⟩
      old (new ++ [⟨pid, shell, shellPgid, .forked, false, true⟩]) := by
  obtain ⟨y, hy, hypid, hypg, hyrest⟩ := h.self
  have hne : pid ≠ shellPgid := fun heq => (hfresh.2 y hy).2 (hypg.trans heq.symm)
  set x : Proc := ⟨pid, shell, shellPgid, .forked, false, true⟩ with hx
  -- the first `fork`, or the leader is the one there was
  have hleader : ∀ l, leader ⟨s.procs ++ [x], s.children ++ [some pid], true, todo⟩ = some l →
      s.children = [] ∧ l = pid ∨ s.leader = some l := by
    intro l hl
    rw [leader, Option.join_eq_some_iff] at hl
    rw [leader, Option.join_eq_some_iff]
    rcases hc : s.children with _ | ⟨c, cs⟩
    · rw [hc] at hl
      cases hl
      exact .inl ⟨rfl, rfl⟩
    · right
      simpa [hc] using hl
  have hnew : s.children = [] → new = [] := by
    intro hnil
    have hnews := h.news
    rwa [hnil, List.filterMap_nil, List.map_eq_nil_iff] at hnews
  refine ⟨?_, h.olds, ?_, ?_, ⟨y, List.mem_append_left _ hy, hypid, hypg, hyrest⟩, h.alone, ?_, ?_,
    ?_, ?_, ?_, ?_, ?_⟩
  · have hkids := h.kids
    rw [Launch.kids] at hkids ⊢
    rw [List.filter_append, hkids, List.append_assoc]
    simp [hx]
  · rw [List.map_append, h.news, List.filterMap_append]
    rfl
  · rw [List.map_append, List.nodup_append]
    refine ⟨h.nodup, List.nodup_singleton _, ?_⟩
    intro a ha b hb heq
    obtain ⟨z, hz, rfl⟩ := List.mem_map.1 ha
    rw [List.map_singleton, List.mem_singleton] at hb
    exact (hfresh.2 z hz).1 (heq.trans hb)
  · rw [List.forall_mem_append, List.forall_mem_singleton]
    exact ⟨h.stage, rfl, hfresh.1⟩
  · intro hl
    rw [List.forall_mem_append, List.forall_mem_singleton]
    refine ⟨?_, rfl⟩
    intro z hz
    rcases hc : s.children with _ | ⟨c, cs⟩
    · rw [hnew hc] at hz
      cases hz
    · refine h.noLeader ?_ z hz
      simpa [leader, hc] using hl
  · intro l hl
    rw [List.forall_mem_append, List.forall_mem_singleton]
    refine ⟨?_, .inr ⟨rfl, rfl, rfl, List.getLast?_concat⟩⟩
    intro z hz
    rcases hleader l hl with ⟨hnil, -⟩ | hl
    · rw [hnew hnil] at hz
      cases hz
    · rcases h.group l hl z hz with hpg | ⟨-, -, hjoin, -⟩
      · exact .inl hpg
      · rw [hj] at hjoin
        cases hjoin
  · intro l hl hat
    rcases hleader l hl with ⟨hnil, -⟩ | hl
    · rcases hat with hat | hat
      · cases hat
      · simp [hnil] at hat
    · obtain ⟨z, hz, hrest⟩ := h.lead l hl (.inl hj)
      exact ⟨z, List.mem_append_left _ hz, hrest⟩
  · intro l hl
    rw [List.forall_mem_append, List.forall_mem_singleton]
    refine ⟨?_, fun _ => rfl⟩
    intro z hz hpg
    rcases hleader l hl with ⟨-, rfl⟩ | hl
    · exact absurd hpg (hfresh.2 z hz).2
    · exact h.only l hl z hz hpg
  · intro l hl
    rcases hleader l hl with ⟨-, rfl⟩ | hl
    · exact hne
    · exact h.other l hl
  · intro z hz
    rw [List.forall_mem_append, List.forall_mem_singleton]
    exact ⟨h.apart z hz, (hfresh.2 z (h.mem_kids (.inl hz)).1).2⟩

theorem keeps_setGroup (pid pgid : ℕ) : Proc.Keeps (Proc.setGroup pid pgid) := by
  constructor <;> intro x <;> rw [Proc.setGroup] <;> split <;> rfl

theorem setGroup_pgid (h : Inv shell shellPgid s₀ s old new) (hl : s.leader = some l)
    (hx : x ∈ new) {y : Proc} (hy : y ∈ s.procs) :
    (Proc.setGroup x.pid l y).pgid = y.pgid ∨
      y ∈ new ∧ s.leader = some (Proc.setGroup x.pid l y).pgid := by
  rw [Proc.setGroup]
  split
  case isTrue heq =>
    rw [h.eq_of_pid hy (h.mem_kids (.inr hx)).1 heq]
    exact .inr ⟨hx, hl⟩
  case isFalse => exact .inl rfl

/-- The shell's `setpgid`. -/
theorem setpgid (h : Inv shell shellPgid s₀ s old new) {pid : ℕ}
    (hlast : s.children.getLast? = some (some pid)) :
    ∃ old' new', Inv shell shellPgid s₀
      { s with procs := CShell.setpgid shell pid s.leader s.procs, joining := false } old' new' := by
  obtain ⟨x, hx, rfl⟩ := h.exists_stage (List.mem_of_getLast? hlast)
  have hmem := (h.mem_kids (.inr hx)).1
  rcases hl : s.leader with _ | l
  · rw [setpgid_none]
    refine ⟨old, new, h.joined ?_⟩
    intro l hl'
    rw [hl] at hl'
    cases hl'
  have hlast' : ∀ z ∈ new, some x.pid = some z.pid → z = x := by
    intro z hz heq
    exact h.eq_of_pid (h.mem_kids (.inr hz)).1 hmem (Option.some.inj heq).symm
  by_cases hp : x.code = .program
  · rw [setpgid_program h.nodup hmem (h.stage x hx).2 (h.ne_shell hx) hp]
    refine ⟨old, new, h.joined ?_⟩
    intro l' hl' z hz
    rcases h.group l' hl' z hz with hpg | ⟨-, hforked, -, hz'⟩
    · exact hpg
    · rw [hlast] at hz'
      rw [hlast' z hz (Option.some.inj hz'), hp] at hforked
      cases hforked
  · have hl₀ : l ≠ 0 := by
      obtain ⟨y, hy, rfl⟩ := h.exists_leader hl
      exact (h.stage y hy).2
    rw [setpgid_eq h.nodup hmem (if_neg (h.stage x hx).2) (if_neg hl₀)
      (.inr ⟨(h.mem_kids (.inr hx)).2, hp⟩) (h.exists_member hl hx)]
    have hmap := h.map (keeps_setGroup x.pid l)
      (fun y _ => by rw [Proc.setGroup]; split <;> rfl)
      (fun y hy => h.setGroup_pgid hl hx hy)
      (fun _ _ y _ hy => by rw [Proc.setGroup]; split <;> exact .inl hy)
    refine ⟨_, _, hmap.joined ?_⟩
    intro l' hl' z hz
    rcases hmap.group l' hl' z hz with hpg | ⟨-, -, -, hz'⟩
    · exact hpg
    · obtain ⟨y, hy, rfl⟩ := List.mem_map.1 hz
      rw [show List.getLast? _ = some (some x.pid) from hlast, (keeps_setGroup _ _).pid] at hz'
      obtain rfl := hlast' y hy (Option.some.inj hz')
      rw [Proc.setGroup, if_pos rfl]
      exact Option.some.inj (hl.symm.trans hl')

/-- The `setpgid` of a stage. -/
theorem child (h : Inv shell shellPgid s₀ s old new) (hx : x ∈ new) :
    ∃ old' new', Inv shell shellPgid s₀ { s with
      procs := (CShell.setpgid x.pid 0 (if s.leader = some x.pid then some 0 else s.leader)
        s.procs).map fun y => if y.pid = x.pid then { y with code := .joined } else y }
      old' new' := by
  have hmem := (h.mem_kids (.inr hx)).1
  have hcode : Proc.Keeps fun y : Proc =>
      if y.pid = x.pid then { y with code := .joined } else y := by
    constructor <;> intro y <;> split <;> rfl
  have hsame : ∀ y : Proc, (if y.pid = x.pid then { y with code := .joined } else y).pgid = y.pgid := by
    intro y
    split <;> rfl
  have hdead : ∀ y : Proc, (if y.pid = x.pid then { y with code := .joined } else y).dead = y.dead := by
    intro y
    split <;> rfl
  rcases hl : s.leader with _ | l
  · rw [if_neg (by simp), setpgid_none]
    refine ⟨_, _, h.map hcode (fun y _ => hdead y) (fun y _ => .inl (hsame y)) ?_⟩
    intro l' hl'
    rw [hl] at hl'
    cases hl'
  · have hl₀ : l ≠ 0 := by
      obtain ⟨y, hy, rfl⟩ := h.exists_leader hl
      exact (h.stage y hy).2
    have hset : CShell.setpgid x.pid 0 (if some l = some x.pid then some 0 else some l) s.procs =
        s.procs.map (Proc.setGroup x.pid l) := by
      split
      case isTrue heq =>
        cases heq
        exact setpgid_eq h.nodup hmem rfl rfl (.inl rfl) (.inl rfl)
      case isFalse hne =>
        exact setpgid_eq h.nodup hmem rfl (if_neg hl₀) (.inl rfl) (h.exists_member hl hx)
    have hmap := h.map (keeps_setGroup x.pid l)
      (fun y _ => by rw [Proc.setGroup]; split <;> rfl)
      (fun y hy => h.setGroup_pgid hl hx hy)
      (fun _ _ y _ hy => by rw [Proc.setGroup]; split <;> exact .inl hy)
    rw [hset]
    refine ⟨_, _, hmap.map hcode (fun y _ => hdead y) (fun y _ => .inl (hsame y)) ?_⟩
    intro l' hl' z hz hforked
    obtain ⟨y, hy, rfl⟩ := List.mem_map.1 hz
    by_cases heq : y.pid = x.pid
    · right
      rw [hsame, Proc.setGroup, if_pos heq]
      exact Option.some.inj (hl.symm.trans hl')
    · left
      rw [if_neg]
      · exact hforked
      · rwa [(keeps_setGroup _ _).pid]

theorem spawn (h : Inv shell shellPgid s₀ s old new) (hx : x ∈ s.procs) (hne : x.pid ≠ shell)
    {pid : ℕ} (hfresh : FreshPid s.procs pid) :
    Inv shell shellPgid s₀
      { s with procs := s.procs ++ [⟨pid, x.pid, x.pgid, .program, false, x.job⟩] } old new := by
  obtain ⟨y, hy, hyrest⟩ := h.self
  refine ⟨?_, h.olds, h.news, ?_, ⟨y, List.mem_append_left _ hy, hyrest⟩, h.alone, h.stage,
    h.noLeader, h.group, h.lead, ?_, h.other, h.apart⟩
  · have hkids := h.kids
    rw [Launch.kids] at hkids ⊢
    rw [List.filter_append, hkids]
    simp [hne]
  · rw [List.map_append, List.nodup_append]
    refine ⟨h.nodup, List.nodup_singleton _, ?_⟩
    intro a ha b hb heq
    obtain ⟨z, hz, rfl⟩ := List.mem_map.1 ha
    rw [List.map_singleton, List.mem_singleton] at hb
    exact (hfresh.2 z hz).1 (heq.trans hb)
  · intro l hl
    rw [List.forall_mem_append, List.forall_mem_singleton]
    exact ⟨h.only l hl, h.only l hl x hx⟩

theorem reap (h : Inv shell shellPgid s₀ s old new) (pid : ℕ) :
    Inv shell shellPgid s₀ { s with procs := s.procs.filter fun x =>
      !(x.pid = pid ∧ x.dead ∧ x.parent ≠ shell) } old new := by
  obtain ⟨y, hy, hpid, hpg, hdead, hjob⟩ := h.self
  refine ⟨?_, h.olds, h.news, ?_, ?_, h.alone, h.stage, h.noLeader, h.group, h.lead, ?_, h.other,
    h.apart⟩
  · have hkids := h.kids
    rw [Launch.kids] at hkids ⊢
    rw [← hkids, List.filter_filter]
    refine List.filter_congr fun x _ => ?_
    by_cases hp : x.parent = shell <;> simp [hp]
  · exact h.nodup.sublist (List.filter_sublist.map _)
  · refine ⟨y, List.mem_filter.2 ⟨hy, ?_⟩, hpid, hpg, hdead, hjob⟩
    simp [hdead]
  · exact fun l hl x hx => h.only l hl x (List.mem_of_mem_filter hx)

theorem step (h : Inv shell shellPgid s₀ s old new) {a : LaunchAct}
    (hs : s.step shell shellPgid a = some s') :
    ∃ old' new', Inv shell shellPgid s₀ s' old' new' := by
  cases a with
  | fork pid =>
    cases pid with
    | none =>
      obtain ⟨⟨hj, -⟩, ⟨⟩⟩ := Option.ite_none_right_eq_some.1 hs
      exact ⟨_, _, h.fork_none hj _⟩
    | some pid =>
      obtain ⟨⟨hj, -, hfresh⟩, ⟨⟩⟩ := Option.ite_none_right_eq_some.1 hs
      exact ⟨_, _, h.fork_some hj hfresh _⟩
  | setpgid =>
    simp only [Launch.step] at hs
    split at hs
    case h_1 hj hlast =>
      cases hs
      exact h.setpgid hlast
    case h_2 => cases hs
  | child pid =>
    obtain ⟨⟨x, hx, rfl, hp, hj, -⟩, ⟨⟩⟩ := Option.ite_none_right_eq_some.1 hs
    exact h.child (h.mem_new hx hp hj)
  | exec pid =>
    obtain ⟨⟨x, hx, rfl, hc, -⟩, ⟨⟩⟩ := Option.ite_none_right_eq_some.1 hs
    refine ⟨_, _, h.map ?_ ?_ (fun y _ => .inl ?_) ?_⟩
    · constructor <;> intro y <;> split <;> rfl
    · intro y _
      split <;> rfl
    · split <;> rfl
    · intro _ _ y hy hforked
      left
      rw [if_neg]
      · exact hforked
      · intro heq
        rw [h.eq_of_pid (h.mem_kids (.inr hy)).1 hx heq, hc] at hforked
        cases hforked
  | exit pid =>
    obtain ⟨hne, ⟨⟩⟩ := Option.ite_none_right_eq_some.1 hs
    refine ⟨_, _, h.map ?_ ?_ (fun y _ => .inl ?_) ?_⟩
    · constructor <;> intro y <;> split <;> rfl
    · intro y hy
      rw [if_neg (fun heq => hne (heq.symm.trans hy))]
    · split <;> rfl
    · intro _ _ y _ hforked
      left
      split
      · exact hforked
      · exact hforked
  | spawn pid new =>
    simp only [Launch.step] at hs
    split at hs
    case h_1 x hfind =>
      obtain ⟨⟨hne, hfresh⟩, ⟨⟩⟩ := Option.ite_none_right_eq_some.1 hs
      have hx := List.mem_of_find?_eq_some hfind
      have hpid := List.find?_some hfind
      rw [decide_eq_true_iff] at hpid
      obtain ⟨rfl, -⟩ := hpid
      exact ⟨_, _, h.spawn hx hne hfresh⟩
    case h_2 => cases hs
  | reap pid =>
    cases hs
    exact ⟨_, _, h.reap pid⟩

end Inv

theorem inv_start {procs : List Proc} (hb : LaunchBase shell shellPgid procs) (stages : ℕ) :
    Inv shell shellPgid (start procs stages) (start procs stages)
      ((start procs stages).kids shell) [] := by
  obtain ⟨x, hx, hpid, hpg, hdead⟩ := hb.shell
  refine ⟨(List.append_nil _).symm, rfl, rfl, hb.nodup, ⟨x, hx, hpid, hpg, hdead, hb.job x hx⟩, ?_,
    List.forall_mem_nil _, fun _ => List.forall_mem_nil _, ?_, ?_, ?_, ?_,
    fun _ _ => List.forall_mem_nil _⟩
  · exact fun y hy => hb.job y (List.mem_of_mem_filter hy)
  all_goals
    intro l hl
    cases hl

theorem inv_of_reachable {procs : List Proc} (hb : LaunchBase shell shellPgid procs) {stages : ℕ}
    (h : Reachable (step shell shellPgid) (start procs stages) s) :
    ∃ old new, Inv shell shellPgid (start procs stages) s old new := by
  refine h.invariant (P := fun s => ∃ old new, Inv shell shellPgid (start procs stages) s old new)
    ⟨_, _, inv_start hb stages⟩ ?_
  rintro s a s' ⟨old, new, h⟩ - hs
  exact h.step hs

end Launch

/-! ## What the launch does -/

section
variable {shell shellPgid stages : ℕ} {procs : List Proc} {s : Launch}

/-- **A stage runs its program in the group of the pipeline**, whatever the order in which
    the shell and the stages call `setpgid`, and whichever of them have ended: at any time
    of a launch, a stage that is past its own `setpgid` is in the group of the first stage,
    or in that of the shell if the first could not be forked; and in the group of the first
    stage are only stages and what they have forked. -/
theorem stages_in_group (hb : LaunchBase shell shellPgid procs)
    (h : Reachable (Launch.step shell shellPgid) (.start procs stages) s) :
    (∀ x ∈ s.procs, x.parent = shell → x.job = true → x.code ≠ .forked →
      x.pgid = s.leader.getD shellPgid) ∧
      ∀ l, s.leader = some l → ∀ x ∈ s.procs, x.pgid = l → x.job = true := by
  obtain ⟨old, new, hinv⟩ := Launch.inv_of_reachable hb h
  refine ⟨?_, hinv.only⟩
  intro x hx hp hj hc
  have hnew := hinv.mem_new hx hp hj
  rcases hl : s.leader with _ | l
  · exact hinv.noLeader hl x hnew
  · rcases hinv.group l hl x hnew with hpg | ⟨-, hforked, -⟩
    · exact hpg
    · exact absurd hforked hc

/-- The shell, 10, has a background job, 20. -/
def shellAndJob : List Proc :=
  [⟨10, 1, 10, .program, false, false⟩, ⟨20, 10, 20, .program, false, false⟩]

theorem launchBase_shellAndJob : LaunchBase 10 10 shellAndJob :=
  ⟨by decide, ⟨_, List.mem_cons_self, rfl, rfl, rfl⟩, by decide⟩

/-- The first stage has run its program to the end before the shell calls `setpgid` for
    it, and before the second is forked. -/
def deadLeader : List LaunchAct :=
  [.fork (some 30), .child 30, .exec 30, .exit 30, .setpgid, .fork (some 31), .child 31, .exec 31,
    .setpgid]

theorem stages_in_group_deadLeader :
    ∃ s, Reachable (Launch.step 10 10) (.start shellAndJob 2) s ∧ s.leader = some 30 ∧
      ∃ x ∈ s.procs, x.pid = 31 ∧ x.code = .program ∧ x.pgid = 30 := by
  have hfacts : (Lib.run (Launch.step 10 10) deadLeader (.start shellAndJob 2)).map
      (fun s => (s.leader, s.procs.getLast?)) =
        some (some 30, some ⟨31, 10, 30, .program, false, true⟩) := by decide
  obtain ⟨s, hs, hfacts⟩ := Option.map_eq_some_iff.1 hfacts
  rw [Prod.mk.injEq] at hfacts
  have hreach := Reachable.of_run _ hs
  have hmem := List.mem_of_getLast? hfacts.2
  have hpgid := (stages_in_group launchBase_shellAndJob hreach).1 _ hmem rfl rfl (by decide)
  rw [hfacts.1] at hpgid
  exact ⟨s, hreach, hfacts.1, _, hmem, rfl, rfl, hpgid⟩

end

end CShell
