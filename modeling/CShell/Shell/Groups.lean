/-
  C-Shell formalization — process groups and the job table.

  The abstract view of the table is a list of groups, each with the pids it
  records as not exited, beside the list of the unreaped children with their
  groups.  `Tracks` says that the two fit: what is recorded is a child, and a
  group that records some process records all its children.

  * `Tracks.fork`, `Tracks.register`, `Tracks.reap`: what the shell does to
    both sides keeps them fitting;
  * `afterReport_groups`: a report to the handler is `Group.without`.
-/
import CShell.Shell.Reports
import Mathlib.Data.List.Nodup

namespace CShell

open Lib

/-! ## Groups and their members -/

/-- A job as far as its processes are concerned. -/
structure Group where
  pgid : ℕ
  /-- the processes not recorded as exited -/
  live : List ℕ

/-- The group after a process has terminated. -/
def Group.without (pid : ℕ) (g : Group) : Group := { g with live := g.live.filter (· ≠ pid) }

/-- The groups fit the members: children with the group they are in. -/
structure Tracks (gs : List Group) (ms : List (ℕ × Option ℕ)) : Prop where
  members : (ms.map Prod.fst).Nodup
  nodup : (gs.flatMap Group.live).Nodup
  child : ∀ g ∈ gs, ∀ p ∈ g.live, (p, some g.pgid) ∈ ms
  covers : ∀ g ∈ gs, g.live ≠ [] → ∀ p, (p, some g.pgid) ∈ ms → p ∈ g.live

namespace Tracks

variable {gs gs' : List Group} {g g' : Group} {ms ms' : List (ℕ × Option ℕ)} {p pid : ℕ}

theorem perm (h : Tracks gs ms) (hg : gs.Perm gs') (hm : ms.Perm ms') : Tracks gs' ms' where
  members := (hm.map _).nodup_iff.1 h.members
  nodup := (hg.flatMap_right _).nodup_iff.1 h.nodup
  child g hg' p hp := hm.mem_iff.1 (h.child g (hg.mem_iff.2 hg') p hp)
  covers g hg' hne p hp := h.covers g (hg.mem_iff.2 hg') hne p (hm.mem_iff.2 hp)

theorem tail (h : Tracks (g :: gs) ms) : Tracks gs ms where
  members := h.members
  nodup := (List.nodup_append.1 h.nodup).2.1
  child k hk := h.child k (.tail _ hk)
  covers k hk := h.covers k (.tail _ hk)

/-- A process is recorded by one group only. -/
theorem eq_of_mem_live (h : Tracks gs ms) (hg : g ∈ gs) (hg' : g' ∈ gs) (hp : p ∈ g.live)
    (hp' : p ∈ g'.live) : g = g' := by
  obtain ⟨pre, post, rfl⟩ := List.append_of_mem hg
  have h₁ := h.perm List.perm_middle (.refl _)
  rcases List.mem_cons.1 (List.perm_middle.mem_iff.1 hg') with rfl | hmem
  · rfl
  · exact absurd rfl ((List.nodup_append.1 h₁.nodup).2.2 p hp p
      (List.mem_flatMap.2 ⟨g', hmem, hp'⟩))

/-- A process is in one group only. -/
theorem pgid_unique (h : Tracks gs ms) {a b : Option ℕ} (ha : (p, a) ∈ ms) (hb : (p, b) ∈ ms) :
    a = b :=
  congrArg Prod.snd (List.inj_on_of_nodup_map h.members ha hb rfl)

/-- A reaped process is taken from the children and from its group. -/
theorem reap (h : Tracks gs ms) (pid : ℕ) :
    Tracks (gs.map (Group.without pid)) (ms.filter (·.1 ≠ pid)) where
  members := h.members.sublist (List.filter_sublist.map _)
  nodup := by
    have he : (gs.map (Group.without pid)).flatMap Group.live =
        (gs.flatMap Group.live).filter (· ≠ pid) := by
      rw [List.flatMap_map, List.filter_flatMap]
      rfl
    rw [he]
    exact h.nodup.filter _
  child g hg p hp := by
    obtain ⟨k, hk, rfl⟩ := List.mem_map.1 hg
    rw [Group.without, List.mem_filter] at hp
    exact List.mem_filter.2 ⟨h.child k hk p hp.1, hp.2⟩
  covers g hg hne p hp := by
    obtain ⟨k, hk, rfl⟩ := List.mem_map.1 hg
    rw [List.mem_filter] at hp
    refine List.mem_filter.2 ⟨h.covers k hk (fun hnil => hne ?_) p hp.1, hp.2⟩
    rw [Group.without, hnil, List.filter_nil]

/-- New children, in a group of their own or in none. -/
theorem fork (h : Tracks gs ms) {pids : List ℕ} {group : Option ℕ} (hn : pids.Nodup)
    (hnew : ∀ p ∈ pids, p ∉ ms.map Prod.fst)
    (hgroup : ∀ g, group = some g → ∀ m ∈ ms, m.2 ≠ some g) :
    Tracks gs (ms ++ pids.map (·, group)) where
  members := by
    rw [List.map_append, List.map_map, List.nodup_append]
    refine ⟨h.members, by simpa [Function.comp_def] using hn, fun x hx y hy hxy => ?_⟩
    have hy' : y ∈ pids := by simpa using hy
    exact hnew y hy' (hxy ▸ hx)
  nodup := h.nodup
  child g hg p hp := List.mem_append_left _ (h.child g hg p hp)
  covers g hg hne p hp := by
    rcases List.mem_append.1 hp with hp | hp
    · exact h.covers g hg hne p hp
    · -- a live group is in use, so the new children are not in it
      obtain ⟨q, -, hq⟩ := List.mem_map.1 hp
      obtain ⟨r, hr⟩ := List.exists_mem_of_ne_nil _ hne
      exact absurd rfl (hgroup g.pgid (congrArg Prod.snd hq) _ (h.child g hg r hr))

/-- All the children of a group are registered. -/
theorem register (h : Tracks gs ms) {pgid : ℕ} {pids : List ℕ} (hn : pids.Nodup)
    (hmem : ∀ p, (p, some pgid) ∈ ms ↔ p ∈ pids) (hgroup : ∀ g ∈ gs, g.live ≠ [] → g.pgid ≠ pgid) :
    Tracks (gs ++ [⟨pgid, pids⟩]) ms := by
  refine Tracks.perm ?_ (List.perm_append_singleton _ _).symm (.refl _)
  refine ⟨h.members, ?_, ?_, ?_⟩
  · rw [List.flatMap_cons, List.nodup_append]
    refine ⟨hn, h.nodup, fun p hp q hq hpq => ?_⟩
    obtain ⟨g, hg, hq⟩ := List.mem_flatMap.1 hq
    subst hpq
    refine hgroup g hg (List.ne_nil_of_mem hq) ?_
    exact Option.some.inj (h.pgid_unique (h.child g hg p hq) ((hmem p).2 hp))
  · exact List.forall_mem_cons.2 ⟨fun p hp => (hmem p).2 hp, h.child⟩
  · exact List.forall_mem_cons.2 ⟨fun _ p hp => (hmem p).1 hp, h.covers⟩

/-- Members none of the groups records may be forgotten. -/
theorem forget {rs : List (ℕ × Option ℕ)} (h : Tracks gs (ms ++ rs))
    (hr : ∀ g ∈ gs, ∀ p ∈ g.live, ∀ a, (p, a) ∉ rs) : Tracks gs ms where
  members := h.members.sublist ((List.sublist_append_left _ _).map _)
  nodup := h.nodup
  child g hg p hp := (List.mem_append.1 (h.child g hg p hp)).resolve_right (hr g hg p hp _)
  covers g hg hne p hp := h.covers g hg hne p (List.mem_append_left _ hp)

end Tracks

/-! ## Groups of the job table -/

/-- The pids of the processes not recorded as exited. -/
def Job.live (j : Job) : List ℕ := (j.procs.filter (!·.exited)).map ProcInfo.pid

/-- The group of a job. -/
def Job.group (j : Job) : Group := ⟨j.pgid, j.live⟩

theorem Job.mem_live {j : Job} {p : ℕ} :
    p ∈ j.live ↔ ∃ q ∈ j.procs, q.exited = false ∧ q.pid = p := by
  simp [live, and_assoc]

theorem Job.without_of_not_has {pid : ℕ} {j : Job} (ha : j.active) (h : ¬j.Has pid) :
    j.group.without pid = j.group := by
  have hnot : pid ∉ j.live := fun hp => h ⟨ha, mem_live.1 hp⟩
  have hf : j.live.filter (· ≠ pid) = j.live :=
    List.filter_eq_self.2 fun p hp => by
      rw [decide_eq_true_eq]
      rintro rfl
      exact hnot hp
  rw [Group.without]
  exact congrArg (Group.mk _) hf

/-- A report takes a process that has terminated out of its group. -/
theorem Job.group_of_matchReport {pid : ℕ} {st : Status} {j j' : Job} {n : Option Notification}
    (h : j.matchReport pid st = some (j', n)) (hn : j.live.Nodup) :
    j'.group = if st.terminated then j.group.without pid else j.group := by
  obtain ⟨pre, p, post, hp, hex, rfl, rfl, -⟩ := matchReport_cases h
  have hlive : j.live = (pre.filter (!·.exited)).map ProcInfo.pid ++
      p.pid :: (post.filter (!·.exited)).map ProcInfo.pid := by
    simp [live, hp, hex]
  have hdis := hlive ▸ hn
  rw [List.nodup_append, List.nodup_cons] at hdis
  by_cases ht : st.terminated
  · simp only [if_pos ht, Group.without]
    refine congrArg (Group.mk _) ?_
    have h₁ : ∀ x ∈ (pre.filter (!·.exited)).map ProcInfo.pid, x ≠ p.pid :=
      fun x hx => hdis.2.2 x hx _ (.head _)
    have h₂ : ∀ x ∈ (post.filter (!·.exited)).map ProcInfo.pid, x ≠ p.pid := by
      rintro x hx rfl
      exact hdis.2.1.1 hx
    rw [show j.group.live = j.live from rfl, hlive, List.filter_append,
      List.filter_eq_self.2 fun x hx => decide_eq_true (h₁ x hx), List.filter_cons,
      if_neg (by simp), List.filter_eq_self.2 fun x hx => decide_eq_true (h₂ x hx)]
    simp [live, ProcInfo.report_exited, ht]
  · simp only [if_neg ht]
    refine congrArg (Group.mk _) ?_
    simp [live, hp, ProcInfo.report_exited, ProcInfo.report_pid, ht, hex]

theorem Job.group_of_mark {state : ProcState} {n : ℤ} {j j' : Job} {b : Unit}
    (h : Job.mark state n j = some (j', b)) : j'.group = j.group := by
  obtain ⟨-, rfl⟩ := mark_cases h
  refine congrArg (Group.mk _) ?_
  simp only [live, List.filter_map, List.map_map, Function.comp_def, ProcInfo.mark_exited,
    ProcInfo.mark_pid]

/-- The slots after a report. -/
def afterReport (pid : ℕ) (st : Status) (js : List Job) : List Job :=
  match updateFirst (Job.matchReport pid st) js with
  | some (js', _) => js'
  | none => js

theorem JobTable.deliver_jobs (t : JobTable) (pid : ℕ) (st : Status) :
    (t.deliver pid st).jobs = afterReport pid st t.jobs := by
  rcases h : updateFirst (Job.matchReport pid st) t.jobs with _ | ⟨js, n⟩
  · rw [deliver_of_none h, afterReport, h]
  · rw [deliver_of_some h, afterReport, h]

theorem afterReport_concat (pid : ℕ) (st : Status) (js : List Job) (j : Job) :
    ∃ k, afterReport pid st (js ++ [j]) = afterReport pid st js ++ [k] := by
  rcases h : updateFirst (Job.matchReport pid st) js with _ | ⟨js', n⟩
  · rw [afterReport, updateFirst_append_of_none h, afterReport, h]
    rcases hj : j.matchReport pid st with _ | ⟨k, n⟩
    · exact ⟨j, by simp [updateFirst, hj]⟩
    · exact ⟨k, by simp [updateFirst, hj]⟩
  · exact ⟨j, by rw [afterReport, updateFirst_append h, afterReport, h]⟩

/-- The first job with a number stays the first one with it, and keeps the
    processes the report does not end. -/
theorem find?_afterReport {pid p : ℕ} {st : Status} {js : List Job} {n : ℤ} {j : Job}
    (hj : js.find? (Job.hasNumber n) = some j) (hne : st.terminated → p ≠ pid) (hp : p ∈ j.live)
    (ha : j.active) :
    ∃ k, (afterReport pid st js).find? (Job.hasNumber n) = some k ∧ p ∈ k.live := by
  rcases hu : updateFirst (Job.matchReport pid st) js with _ | ⟨js', m⟩
  · exact ⟨j, by rw [afterReport, hu, hj], hp⟩
  have hsame : ∀ x y b, Job.matchReport pid st x = some (y, b) → y.hasNumber n = x.hasNumber n := by
    intro x y b hx
    obtain ⟨_, _, _, -, -, -, rfl, -⟩ := Job.matchReport_cases hx
    rfl
  obtain ⟨k, hk, hkj⟩ := find?_updateFirst hsame hu hj
  refine ⟨k, by rw [afterReport, hu, hk], ?_⟩
  rcases hkj with rfl | hkj
  · exact hp
  · exact Job.mem_live.2 (Job.has_of_matchReport hkj hne ⟨ha, Job.mem_live.1 hp⟩).2

theorem length_afterReport (pid : ℕ) (st : Status) (js : List Job) :
    (afterReport pid st js).length = js.length := by
  rcases h : updateFirst (Job.matchReport pid st) js with _ | ⟨js', n⟩
  · rw [afterReport, h]
  · obtain ⟨pre, j, j', post, rfl, rfl, -⟩ := exists_of_updateFirst h
    rw [afterReport, h]
    simp

theorem afterReport_wf {pid : ℕ} {st : Status} {js : List Job} (h : ∀ j ∈ js, j.WF) :
    ∀ j ∈ afterReport pid st js, j.WF := by
  rcases hu : updateFirst (Job.matchReport pid st) js with _ | ⟨js', n⟩
  · rwa [afterReport, hu]
  · obtain ⟨pre, j, j', post, rfl, rfl, hj⟩ := exists_of_updateFirst hu
    rw [afterReport, hu]
    rw [List.forall_mem_append, List.forall_mem_cons] at h ⊢
    exact ⟨h.1, Job.wf_of_matchReport hj h.2.1, h.2.2⟩

theorem afterReport_groups (pid : ℕ) (st : Status) {js : List Job} (hact : ∀ j ∈ js, j.active)
    (hn : ((js.map Job.group).flatMap Group.live).Nodup) :
    (afterReport pid st js).map Job.group =
      (js.map Job.group).map (if st.terminated then Group.without pid else id) := by
  have hself {k : Job} (hk : k ∈ js) (hnot : ¬k.Has pid) :
      (if st.terminated then Group.without pid else id) k.group = k.group := by
    split
    · exact Job.without_of_not_has (hact k hk) hnot
    · rfl
  rcases hu : updateFirst (Job.matchReport pid st) js with _ | ⟨js', n⟩
  · rw [afterReport, hu, List.map_map]
    refine List.map_congr_left fun k hk => (hself hk ?_).symm
    exact Job.matchReport_eq_none.1 (updateFirst_eq_none.1 hu k hk)
  · obtain ⟨pre, j, j', post, rfl, rfl, hj⟩ := exists_of_updateFirst hu
    rw [afterReport, hu]
    obtain ⟨pre', p, post', hp, hex, hpid, -⟩ := Job.matchReport_cases hj
    have hlive : pid ∈ j.live := Job.mem_live.2 ⟨p, by simp [hp], hex, hpid⟩
    simp only [List.map_append, List.map_cons, List.flatMap_append, List.flatMap_cons,
      List.nodup_append] at hn
    have hpre : ∀ k ∈ pre, ¬k.Has pid := fun k hk hkp => hn.2.2 pid
      (List.mem_flatMap.2 ⟨k.group, List.mem_map_of_mem hk, Job.mem_live.2 hkp.2⟩) pid
      (List.mem_append_left _ hlive) rfl
    have hpost : ∀ k ∈ post, ¬k.Has pid := fun k hk hkp => hn.2.1.2.2 pid hlive pid
      (List.mem_flatMap.2 ⟨k.group, List.mem_map_of_mem hk, Job.mem_live.2 hkp.2⟩) rfl
    rw [List.map_map, List.map_append, List.map_append, List.map_cons, List.map_cons,
      Job.group_of_matchReport hj hn.2.1.1]
    refine congrArg₂ (· ++ ·) ?_ (congrArg₂ List.cons ?_ ?_)
    · exact List.map_congr_left fun k hk => (hself (by simp [hk]) (hpre k hk)).symm
    · simp only [Function.comp]
      split <;> rfl
    · exact List.map_congr_left fun k hk => (hself (by simp [hk]) (hpost k hk)).symm

end CShell
