/-
  C-Shell formalization — what a pipeline leaves open in the shell.

  For each stage the shell opens files and pipes, and one flag,
  `setup_failed`, stands for all that can go wrong and decides what is closed
  in the end.  The proofs keep account of the numbers the shell has open
  besides those it had before (`Accounts`): those it is going to close, and
  those it has lost (`leak`).

  * `unchanged_closeAll_iff`: closing a list of numbers restores the table,
    and closes none twice, iff the list has just the numbers held;
  * `unchanged_iff_covered`: after `run_pipeline` and `run_pipeline_background` the
    table is as before iff no call fails in one of the ways of `Covered`.
-/
import CShell.Shell.PipeEnds

namespace CShell

open Lib

/-- The shell's table is `base`, and it has closed no number that was not
    open. -/
def Unchanged (base : Fds Desc) (k : Kernel) : Prop :=
  (∀ n d, k.fds.At n d ↔ base.At n d) ∧ k.ebadf = []

/-! ## When calls fail -/

/-- The input of the stage is set up, if it has any. -/
def Stage.InputOk (s : Stage) : Prop :=
  s.inputs = [] ∨ ((∀ ok ∈ s.inputs, ok) ∧ s.pipeIn ∧ s.forkIn)

/-- The stage has output files, and all can be opened. -/
def Stage.OutputsOpen (s : Stage) : Prop := s.outputs ≠ [] ∧ ∀ ok ∈ s.outputs, ok

/-- If the output files of the stage are opened, then also its input is set
    up. -/
def Stage.InputCovered (s : Stage) : Prop := s.OutputsOpen → s.InputOk

/-- If the stage needs a copier, then it gets one. -/
def Stage.CopierCovered (s : Stage) : Prop :=
  s.OutputsOpen → s.InputOk → 1 < s.outputs.length → s.pipeOut ∧ s.forkOut

/-- The failures after which everything is closed: in the foreground all but
    a missing input of a stage whose output files are open; in the background
    also no copier may fail, and if there is no pipe, then it must be the
    first one, with no output file open yet. -/
def Covered (pipeOk : ℕ → Bool) (stages : List Stage) : Launcher → Prop
  | .foreground => ∀ s ∈ stages, s.InputCovered
  | .background =>
    if ∀ i < stages.length - 1, pipeOk i then ∀ s ∈ stages, s.InputCovered ∧ s.CopierCovered
    else pipeOk 0 = false ∧ ∀ s ∈ stages, ¬s.OutputsOpen

/-! ## Accounting -/

/-- The shell has the numbers `held` open besides `base`, and has made no
    wrong `close` yet. -/
structure Accounts (base : Fds Desc) (held : List ℕ) (k : Kernel) : Prop where
  holds : Fds.Holds base held k.fds
  ebadf : k.ebadf = []

section
variable {base : Fds Desc} {held held' ns : List ℕ} {k : Kernel} {n : ℕ}

namespace Accounts

theorem perm (h : Accounts base held k) (hp : held.Perm held') : Accounts base held' k :=
  ⟨h.holds.perm hp, h.ebadf⟩

theorem open_ (h : Accounts base held k) (d : Desc) :
    Accounts base ((k.open_ d).1 :: held) (k.open_ d).2 :=
  ⟨h.holds.alloc d, h.ebadf⟩

theorem pipe (h : Accounts base held k) (p : PipeId) :
    Accounts base ((k.pipe p).1.1 :: (k.pipe p).1.2 :: held) (k.pipe p).2 :=
  ((h.open_ (.readEnd p)).open_ (.writeEnd p)).perm (.swap ..)

theorem fork (h : Accounts base held k) (role : Role) (child : Fds Desc → Fds Desc) :
    Accounts base held (k.fork role child) :=
  ⟨h.holds, h.ebadf⟩

theorem close (h : Accounts base (n :: held) k) : Accounts base held (k.close n) := by
  refine ⟨h.holds.close, ?_⟩
  obtain ⟨d, hd⟩ := h.holds.isOpen n (.head _)
  have hopen : (k.fds[n]?.join).isSome := by rw [hd]; rfl
  simp only [Kernel.close, hopen, if_true]
  exact h.ebadf

theorem closeAll (h : Accounts base (ns ++ held) k) : Accounts base held (k.closeAll ns) := by
  induction ns generalizing k with
  | nil => exact h
  | cons n ns ih => exact ih h.close

end Accounts

/-! ## Closing -/

theorem ebadf_subset_closeAll (k : Kernel) (ns : List ℕ) :
    k.ebadf ⊆ (k.closeAll ns).ebadf := by
  induction ns generalizing k with
  | nil => exact List.Subset.refl _
  | cons n ns ih =>
    refine List.Subset.trans ?_ (ih (k.close n))
    simp only [Kernel.close]
    split
    · exact List.Subset.refl _
    · exact List.subset_append_left ..

/-- Without a wrong `close`, different open numbers were closed. -/
theorem nodup_of_closeAll (h : (k.closeAll ns).ebadf = []) :
    ns.Nodup ∧ ∀ n ∈ ns, ∃ d, k.fds.At n d := by
  induction ns generalizing k with
  | nil => exact ⟨.nil, nofun⟩
  | cons n ns ih =>
    obtain ⟨hnodup, hopen⟩ := ih (k := k.close n) h
    have hn : ∃ d, k.fds.At n d := by
      by_contra hno
      have hsub := ebadf_subset_closeAll (k.close n) ns
      rw [show ((k.close n).closeAll ns).ebadf = [] from h] at hsub
      have hbad : ((k.fds[n]?.join).isSome) = false := by
        rcases hk : k.fds[n]? with _ | _ | d
        · rfl
        · rfl
        · exact absurd ⟨d, hk⟩ hno
      have hmem : n ∈ (k.close n).ebadf := by simp [Kernel.close, hbad]
      exact nomatch hsub hmem
    refine ⟨List.nodup_cons.2 ⟨fun hmem => ?_, hnodup⟩, List.forall_mem_cons.2 ⟨hn, fun m hm => ?_⟩⟩
    · obtain ⟨d, hd⟩ := hopen n hmem
      exact ((Fds.at_close _).1 hd).1 rfl
    · obtain ⟨d, hd⟩ := hopen m hm
      exact ⟨d, ((Fds.at_close _).1 hd).2⟩

/-- **Closing restores the table iff it closes just what is held.** -/
theorem unchanged_closeAll_iff (h : Accounts base held k) :
    Unchanged base (k.closeAll ns) ↔ ns.Perm held := by
  constructor
  · rintro ⟨hfds, hebadf⟩
    rw [(k.closeAll_eq ns).1] at hfds
    obtain ⟨hnodup, hopen⟩ := nodup_of_closeAll hebadf
    refine (List.perm_ext_iff_of_nodup hnodup h.holds.nodup).2 fun n => ⟨fun hn => ?_, fun hn => ?_⟩
    · -- a number of `base` would be missing now
      by_contra hheld
      obtain ⟨d, hd⟩ := hopen n hn
      have hbase := (h.holds.rest n d hheld).1 hd
      exact ((Fds.at_closeAll _ _).1 ((hfds n d).2 hbase)).1 hn
    · by_contra hns
      obtain ⟨d, hd⟩ := h.holds.isOpen n hn
      exact h.holds.free n hn d ((hfds n d).1 ((Fds.at_closeAll _ _).2 ⟨hns, hd⟩))
  · intro hp
    have hend : Accounts base [] (k.closeAll ns) := (h.perm (by simpa using hp.symm)).closeAll
    exact ⟨fun n d => hend.holds.rest n d nofun, hend.ebadf⟩

/-! ## Setting up -/

/-- The numbers opened so far are kept or all closed again. -/
theorem openFiles_accounts (file : ℕ → Desc) (oks : List Bool) (fds : List ℕ)
    (h : Accounts base (fds ++ held) k) :
    Accounts base ((openFiles file oks fds k).1.getD [] ++ held) (openFiles file oks fds k).2 ∧
      ((openFiles file oks fds k).1.isSome ↔ ∀ ok ∈ oks, ok) ∧
      ∀ fds', (openFiles file oks fds k).1 = some fds' → fds'.length = fds.length + oks.length := by
  induction oks generalizing fds k with
  | nil =>
    refine ⟨h, by simp [openFiles], ?_⟩
    rintro fds' ⟨⟩
    rfl
  | cons ok oks ih =>
    cases ok with
    | false =>
      simp only [openFiles, Bool.false_eq_true, if_false]
      exact ⟨h.closeAll, by simp, by simp⟩
    | true =>
      have hnew : Accounts base ((fds ++ [(k.open_ (file fds.length)).1]) ++ held)
          (k.open_ (file fds.length)).2 := (h.open_ (file fds.length)).perm <| by
        rw [List.append_assoc, List.singleton_append]
        exact List.perm_middle.symm
      obtain ⟨hacc, hall, hlen⟩ := ih _ hnew
      simp only [openFiles, if_true]
      refine ⟨hacc, by simpa using hall, fun fds' hf => ?_⟩
      rw [hlen fds' hf, List.length_append, List.length_singleton, List.length_cons]
      omega

theorem setupInput_accounts (i : ℕ) (s : Stage) (h : Accounts base held k) :
    Accounts base ((setupInput i s k).1.toList ++ held) (setupInput i s k).2 ∧
      ((setupInput i s k).1.isSome ↔ (∀ ok ∈ s.inputs, ok) ∧ s.pipeIn ∧ s.forkIn) := by
  obtain ⟨hacc, hall, -⟩ := openFiles_accounts (.inFile i) s.inputs [] h
  rw [setupInput]
  rcases ho : openFiles (.inFile i) s.inputs [] k with ⟨_ | fds, k₁⟩
  · rw [ho] at hacc hall
    refine ⟨hacc, iff_of_false Bool.false_ne_true fun hs => ?_⟩
    exact Bool.false_ne_true (hall.2 hs.1)
  rw [ho] at hacc hall
  have hfiles : ∀ ok ∈ s.inputs, ok := hall.1 rfl
  by_cases hp : s.pipeIn
  · by_cases hf : s.forkIn
    · have hpipe := (hacc.pipe (.input i)).fork (.writer i) (Fds.close (k₁.pipe (.input i)).1.1)
      simp only [hp, hf, if_true]
      refine ⟨?_, by simpa using hfiles⟩
      -- the write end and the files are closed, the read end is kept
      exact ((hpipe.perm (.swap ..)).close.perm List.perm_middle.symm).closeAll
    · simp only [hp, hf, if_true, Bool.false_eq_true, if_false]
      exact ⟨(hacc.pipe (.input i)).close.close.closeAll, by simp⟩
  · simp only [hp, Bool.false_eq_true, if_false]
    exact ⟨hacc.closeAll, by simp⟩

/-- What the shell closes for a stage in the end. -/
def Setup.closes (s : Setup) : List ℕ := s.fds ++ s.outputPipe.toList.flatMap fun p => [p.1, p.2]

/-- The output files that are open although the setup has failed. -/
def Setup.lost (s : Setup) : List ℕ := if s.setupFailed then s.outputFds else []

/-- A stage after its setup, before its copier. -/
structure Setup.Fresh (s : Setup) : Prop where
  pipe : s.outputPipe = none
  failed : s.setupFailed = false ↔ s.stage.InputOk ∧ ∀ ok ∈ s.stage.outputs, ok
  opened : s.outputFds ≠ [] ↔ s.stage.OutputsOpen

theorem Setup.Fresh.closes_eq {s : Setup} (h : s.Fresh) :
    s.closes = s.inputFd.toList ++ if !s.setupFailed then s.outputFds else [] := by
  have hnone : s.stage.outputs = [] → s.outputFds = [] := fun hs => by
    by_contra hfds
    exact (h.opened.1 hfds).1 hs
  rw [Setup.closes, Setup.fds, h.pipe]
  by_cases hs : s.stage.outputs = [] <;> simp [hs, hnone]

theorem Setup.Fresh.closes_lost {s : Setup} (h : s.Fresh) :
    s.closes ++ s.lost = s.inputFd.toList ++ s.outputFds := by
  rw [h.closes_eq, Setup.lost]
  cases s.setupFailed <;> simp

theorem Setup.Fresh.lost_eq_nil {s : Setup} (h : s.Fresh) : s.lost = [] ↔ s.stage.InputCovered := by
  rw [Setup.lost, Stage.InputCovered]
  by_cases hf : s.setupFailed = false
  · simp [hf, (h.failed.1 hf).1]
  · rw [if_pos (by simpa using hf)]
    constructor
    · intro hnil hout
      exact absurd hnil (h.opened.2 hout)
    · intro hcov
      by_contra hfds
      have hout := h.opened.1 hfds
      exact hf (h.failed.2 ⟨hcov hout, hout.2⟩)

theorem setupStage_accounts (i : ℕ) (s : Stage) (h : Accounts base held k) :
    Accounts base ((setupStage i s k).1.closes ++ ((setupStage i s k).1.lost ++ held))
        (setupStage i s k).2 ∧
      (setupStage i s k).1.Fresh ∧ (setupStage i s k).1.stage = s := by
  set inp := if s.inputs = [] then (none, k) else setupInput i s k with hinp
  have hin : Accounts base (inp.1.toList ++ held) inp.2 ∧
      ((s.inputs ≠ [] ∧ inp.1 = none) ↔ ¬s.InputOk) := by
    rw [hinp]
    by_cases hs : s.inputs = []
    · simp only [hs, if_true]
      exact ⟨h, by simp [Stage.InputOk, hs]⟩
    · obtain ⟨hacc, hsome⟩ := setupInput_accounts i s h
      simp only [if_neg hs]
      refine ⟨hacc, ?_⟩
      rw [Stage.InputOk, ← hsome, not_or, Option.not_isSome_iff_eq_none]
  obtain ⟨hout, hall, hlen⟩ := openFiles_accounts (.outFile i) s.outputs [] hin.1
  rcases ho : openFiles (.outFile i) s.outputs [] inp.2 with ⟨out, k₁⟩
  rw [ho] at hout hall hlen
  have hfresh : (setupStage i s k).1.Fresh := by
    simp only [setupStage, ← hinp, ho]
    refine ⟨rfl, ?_, ?_⟩
    · dsimp only
      rw [decide_eq_false_iff_not, not_or, hin.2, not_not, ← hall, Option.isSome_iff_ne_none]
    · rw [Stage.OutputsOpen, ← hall]
      cases out with
      | none => simp
      | some fds =>
        have := hlen fds rfl
        simp [← List.length_eq_zero_iff, this]
  refine ⟨?_, hfresh, rfl⟩
  rw [← List.append_assoc, hfresh.closes_lost]
  simp only [setupStage, ← hinp, ho]
  rw [List.append_assoc]
  exact hout.perm (List.perm_append_comm_assoc ..)

theorem setupStages_accounts (stages : List Stage) (i : ℕ) (h : Accounts base held k) :
    Accounts base ((setupStages i stages k).1.flatMap Setup.closes ++
        ((setupStages i stages k).1.flatMap Setup.lost ++ held)) (setupStages i stages k).2 ∧
      (∀ s ∈ (setupStages i stages k).1, s.Fresh) ∧
      (setupStages i stages k).1.map Setup.stage = stages := by
  induction stages generalizing i held k with
  | nil => exact ⟨h, by simp [setupStages], rfl⟩
  | cons s stages ih =>
    obtain ⟨hacc, hfresh, hstage⟩ := setupStage_accounts i s h
    obtain ⟨haccs, hall, hstages⟩ := ih (i + 1) hacc
    refine ⟨haccs.perm ?_, List.forall_mem_cons.2 ⟨hfresh, hall⟩,
      by rw [setupStages, List.map_cons, hstage, hstages]⟩
    refine List.perm_iff_count.2 fun n => ?_
    simp only [setupStages, List.flatMap_cons, List.count_append]
    omega

/-! ## The pipes between the stages -/

theorem makePipes_accounts (ok : ℕ → Bool) (todo i : ℕ) (h : Accounts base held k) :
    Accounts base (ends (makePipes ok todo i k).2.1 ++ held) (makePipes ok todo i k).2.2 ∧
      ((makePipes ok todo i k).1 = if ∀ j < todo, ok (i + j) then
        some (makePipes ok todo i k).2.1 else none) ∧
      ((makePipes ok todo i k).2.1 = [] ↔ todo = 0 ∨ ok i = false) := by
  induction todo generalizing i held k with
  | zero => exact ⟨h, by simp [makePipes], by simp [makePipes]⟩
  | succ todo ih =>
    by_cases hok : ok i = true
    · obtain ⟨hacc, hres, -⟩ := ih (i + 1) (h.pipe (.between i))
      have hiff : (∀ j < todo + 1, ok (i + j)) ↔ ∀ j < todo, ok (i + 1 + j) := by
        rw [Nat.forall_lt_succ_left]
        simp [hok, Nat.add_comm 1, Nat.add_assoc]
      simp only [makePipes, hok, if_true, hiff]
      refine ⟨?_, ?_, by simp⟩
      · refine hacc.perm (List.perm_iff_count.2 fun n => ?_)
        simp only [ends, List.flatMap_cons, List.count_append, List.count_cons, List.count_nil]
        omega
      · rw [hres]
        split <;> rfl
    · simp only [makePipes, hok, Bool.false_eq_true, if_false]
      refine ⟨h, ?_, by simp⟩
      rw [if_neg]
      intro hall
      exact hok (hall 0 (Nat.succ_pos _))

/-! ## The copiers -/

/-- What becomes of the numbers of a stage when its copier is started: some
    are kept and closed in the end, some are lost; and numbers that are not
    open any more may be closed in the end as well. -/
structure Parted (base : Fds Desc) (held before after : List ℕ) (k : Kernel)
    (kept stale leak : List ℕ) : Prop where
  accounts : Accounts base (kept ++ (leak ++ held)) k
  perm : after.Perm (kept ++ stale)
  fresh : ∀ n ∈ stale, n ∉ before ++ held
  subset : leak ⊆ before
  none : leak = [] → stale = []

theorem Setup.Fresh.copies_iff {s : Setup} (h : s.Fresh) :
    s.Copies ↔ s.stage.OutputsOpen ∧ s.stage.InputOk ∧ 1 < s.stage.outputs.length := by
  rw [Setup.Copies, h.failed, Stage.OutputsOpen]
  constructor
  · rintro ⟨hlen, hin, hall⟩
    refine ⟨⟨?_, hall⟩, hin, hlen⟩
    rintro hnil
    rw [hnil] at hlen
    exact absurd hlen (by decide)
  · rintro ⟨⟨-, hall⟩, hin, hlen⟩
    exact ⟨hlen, hin, hall⟩

/-- The numbers of a stage that needs a copier. -/
theorem Setup.Fresh.closes_of_copies {s : Setup} (h : s.Fresh) (hs : s.Copies) :
    s.closes = s.inputFd.toList ++ s.outputFds := by
  have hne : s.stage.outputs ≠ [] := (h.copies_iff.1 hs).1.1
  rw [Setup.closes, Setup.fds, h.pipe]
  simp [hne, hs.2]

/-- Of a stage whose setup has failed only the input is closed. -/
theorem Setup.Fresh.closes_failed {s : Setup} (h : s.Fresh) :
    ({ s with setupFailed := true } : Setup).closes = s.inputFd.toList := by
  simp [Setup.closes, Setup.fds, h.pipe]

/-- Nothing is lost. -/
theorem Parted.of_kept {before after : List ℕ} (h : Accounts base (after ++ held) k) :
    Parted base held before after k after [] [] :=
  ⟨h, by rw [List.append_nil], nofun, nofun, fun _ => rfl⟩

/-- The output files are lost, and `stale` is what the shell takes for its
    ends of the pipe. -/
theorem Parted.of_lost {s : Setup} {after stale : List ℕ} (hs : s.Fresh) (hc : s.Copies)
    (h : Accounts base (s.outputFds ++ (s.inputFd.toList ++ held)) k)
    (hafter : after = s.inputFd.toList ++ stale) (hstale : ∀ n ∈ stale, n ∉ s.closes ++ held) :
    Parted base held s.closes after k s.inputFd.toList stale s.outputFds where
  accounts := h.perm (List.perm_append_comm_assoc ..)
  perm := hafter ▸ .rfl
  fresh := hstale
  subset := by
    rw [hs.closes_of_copies hc]
    exact List.subset_append_right ..
  none hnil := absurd hnil (hs.opened.2 (hs.copies_iff.1 hc).1)

/-- The ends of a new pipe are not among the numbers held. -/
theorem Accounts.not_mem_pipe (h : Accounts base held k) (p : PipeId) :
    ∀ n ∈ [(k.pipe p).1.1, (k.pipe p).1.2], n ∉ held := by
  have hnodup := (h.pipe p).holds.nodup
  rw [List.nodup_cons, List.nodup_cons] at hnodup
  simp only [List.forall_mem_cons]
  exact ⟨fun hn => hnodup.1 (.tail _ hn), hnodup.2.1, nofun⟩

theorem startCopier_parted {s : Setup} (launcher : Launcher) (ss : List Setup)
    (pipes : List (ℕ × ℕ)) (i : ℕ) (hs : s.Fresh) (h : Accounts base (s.closes ++ held) k) :
    ∃ kept stale leak,
      Parted base held s.closes (startCopier launcher ss pipes i s k).1.closes
        (startCopier launcher ss pipes i s k).2 kept stale leak ∧
      (leak = [] ↔ (launcher = .background → s.stage.CopierCovered)) := by
  by_cases hc : s.Copies
  swap
  · -- no copier is needed
    rw [startCopier_of_not i hc]
    refine ⟨_, _, _, .of_kept h, iff_of_true rfl fun _ hout hin hlen => ?_⟩
    exact absurd (hs.copies_iff.2 ⟨hout, hin, hlen⟩) hc
  obtain ⟨hout, hin, hlen⟩ := hs.copies_iff.1 hc
  have hcov : s.stage.CopierCovered ↔ s.stage.pipeOut ∧ s.stage.forkOut :=
    ⟨fun hcov => hcov hout hin hlen, fun hcov _ _ _ => hcov⟩
  have hne : s.outputFds ≠ [] := hs.opened.2 hout
  have hown : Accounts base (s.outputFds ++ (s.inputFd.toList ++ held)) k := h.perm <| by
    rw [hs.closes_of_copies hc, List.append_assoc]
    exact List.perm_append_comm_assoc ..
  have hpipe := hown.pipe (.output i)
  rw [startCopier.eq_def, if_pos (by simpa [Setup.Copies] using hc)]
  by_cases hp : s.stage.pipeOut
  · by_cases hf : s.stage.forkOut
    · simp only [hp, hf, if_true]
      refine ⟨_, _, _, .of_kept (((h.pipe (.output i)).fork _ _).perm ?_),
        iff_of_true rfl fun _ => hcov.2 ⟨hp, hf⟩⟩
      refine List.perm_iff_count.2 fun n => ?_
      simp only [Setup.closes, Setup.fds, hs.pipe, Option.toList_some, Option.toList_none,
        List.flatMap_singleton, List.flatMap_nil, List.count_append, List.count_cons, List.count_nil]
      omega
    · -- the pipe is closed again; in the background its numbers are kept
      simp only [hp, hf, if_true, Bool.false_eq_true, if_false]
      cases launcher with
      | foreground =>
        refine ⟨s.inputFd.toList, [], [], ?_, by simp⟩
        rw [hs.closes_failed]
        exact .of_kept hpipe.close.close.closeAll
      | background =>
        refine ⟨_, _, _, .of_lost hs hc hpipe.close.close ?_ (h.not_mem_pipe (.output i)),
          by simp [hne, hcov, hf]⟩
        simp [Setup.closes, Setup.fds]
  · simp only [hp, Bool.false_eq_true, if_false]
    cases launcher with
    | foreground =>
      refine ⟨s.inputFd.toList, [], [], ?_, by simp⟩
      rw [hs.closes_failed]
      exact .of_kept hown.closeAll
    | background =>
      refine ⟨_, [], _, .of_lost hs hc hown ?_ (by simp), by simp [hne, hcov, hp]⟩
      simp [Setup.closes, Setup.fds, hs.pipe]

theorem startCopier_stage {s : Setup} (launcher : Launcher) (ss : List Setup)
    (pipes : List (ℕ × ℕ)) (i : ℕ) (k : Kernel) :
    (startCopier launcher ss pipes i s k).1.stage = s.stage := by
  rw [startCopier.eq_def]
  split_ifs
  · rfl
  · cases launcher <;> rfl
  · cases launcher <;> rfl
  · rfl

/-- The books while the copiers are started: `done` have theirs, `todo` are
    as they were set up. -/
structure Books (launcher : Launcher) (base : Fds Desc) (lost held : List ℕ)
    (done todo : List Setup) (k : Kernel) : Prop where
  fresh : ∀ s ∈ todo, s.Fresh
  parted : ∃ kept stale leak,
    Parted base (todo.flatMap Setup.closes ++ held) leak (done.flatMap Setup.closes) k
      kept stale leak ∧
    (leak = [] ↔ lost = [] ∧
      ∀ s ∈ done, launcher = .background → s.stage.CopierCovered)

theorem Books.step {launcher : Launcher} {lost : List ℕ} {done todo : List Setup} {s : Setup}
    (ss : List Setup) (pipes : List (ℕ × ℕ)) (i : ℕ)
    (h : Books launcher base lost held done (s :: todo) k) :
    Books launcher base lost held (done ++ [(startCopier launcher ss pipes i s k).1]) todo
      (startCopier launcher ss pipes i s k).2 := by
  obtain ⟨hs, hfresh⟩ := List.forall_mem_cons.1 h.fresh
  obtain ⟨kept, stale, leak, hbooks, hleak⟩ := h.parted
  have hacc : Accounts base
      (s.closes ++ (kept ++ (leak ++ (todo.flatMap Setup.closes ++ held)))) k := by
    refine hbooks.accounts.perm (List.perm_iff_count.2 fun n => ?_)
    simp only [List.flatMap_cons, List.count_append]
    omega
  obtain ⟨kept', stale', leak', hstep, hleak'⟩ := startCopier_parted launcher ss pipes i hs hacc
  refine ⟨hfresh, kept ++ kept', stale ++ stale', leak ++ leak', ⟨?_, ?_, ?_, ?_, ?_⟩, ?_⟩
  · refine hstep.accounts.perm (List.perm_iff_count.2 fun n => ?_)
    simp only [List.count_append]
    omega
  · rw [List.flatMap_append, List.flatMap_singleton]
    refine (hbooks.perm.append hstep.perm).trans (List.perm_iff_count.2 fun n => ?_)
    simp only [List.count_append]
    omega
  · -- the new numbers are lost from this stage, the earlier stale ones are not its numbers
    intro n hn
    rcases List.mem_append.1 hn with hn | hn
    · have hold := hbooks.fresh n hn
      have hsub := @hstep.subset n
      simp only [List.flatMap_cons, List.mem_append, not_or] at hold ⊢
      exact ⟨⟨hold.1, fun hmem => hold.2.1.1 (hsub hmem)⟩, hold.2.1.2, hold.2.2⟩
    · have hnew := hstep.fresh n hn
      have hsub := @hstep.subset n
      simp only [List.mem_append, not_or] at hnew ⊢
      exact ⟨⟨hnew.2.2.1, fun hmem => hnew.1 (hsub hmem)⟩, hnew.2.2.2⟩
  · exact List.Subset.refl _
  · intro hnil
    rw [List.append_eq_nil_iff] at hnil ⊢
    exact ⟨hbooks.none hnil.1, hstep.none hnil.2⟩
  · rw [List.append_eq_nil_iff, hleak, hleak', and_assoc, List.forall_mem_append,
      List.forall_mem_singleton, startCopier_stage]

theorem startCopiers_books {launcher : Launcher} {lost : List ℕ} (pipes : List (ℕ × ℕ))
    (todo done : List Setup) (k : Kernel) (h : Books launcher base lost held done todo k) :
    Books launcher base lost held
        (startCopiers launcher pipes todo.length done.length (done ++ todo) k).1 []
        (startCopiers launcher pipes todo.length done.length (done ++ todo) k).2 ∧
      (startCopiers launcher pipes todo.length done.length (done ++ todo) k).1.map Setup.stage =
        (done ++ todo).map Setup.stage := by
  induction todo generalizing done k with
  | nil =>
    rw [List.append_nil]
    exact ⟨h, rfl⟩
  | cons s todo ih =>
    have hget : (done ++ s :: todo)[done.length]? = some s := by simp
    have hset (s' : Setup) : (done ++ s :: todo).set done.length s' = (done ++ [s']) ++ todo := by
      simp
    obtain ⟨hbooks, hstages⟩ := ih _ _ (h.step (done ++ s :: todo) pipes done.length)
    rw [List.length_append, List.length_singleton, ← hset] at hbooks hstages
    rw [List.length_cons, startCopiers]
    simp only [hget]
    refine ⟨hbooks, hstages.trans ?_⟩
    simp [hset, startCopier_stage]

/-- The shell's table is restored iff nothing has been lost: what is lost is
    open and stays so, and a stale number cannot stand for it. -/
theorem Books.restored_iff {launcher : Launcher} {lost : List ℕ} {done : List Setup}
    (h : Books launcher base lost held done [] k) :
    Unchanged base (k.closeAll (held ++ done.flatMap Setup.closes)) ↔
      lost = [] ∧ ∀ s ∈ done, launcher = .background → s.stage.CopierCovered := by
  obtain ⟨kept, stale, leak, hbooks, hleak⟩ := h.parted
  rw [unchanged_closeAll_iff hbooks.accounts, ← hleak]
  have hperm : (held ++ done.flatMap Setup.closes).Perm (stale ++ (kept ++ held)) := by
    refine (hbooks.perm.append_left held).trans (List.perm_iff_count.2 fun n => ?_)
    simp only [List.count_append]
    omega
  have hheld : (kept ++ (leak ++ ([].flatMap Setup.closes ++ held))).Perm
      (leak ++ (kept ++ held)) := by
    rw [List.flatMap_nil, List.nil_append]
    exact List.perm_append_comm_assoc ..
  constructor
  · intro hp
    have hsame : stale.Perm leak :=
      (List.perm_append_right_iff _).1 (hperm.symm.trans (hp.trans hheld))
    refine List.eq_nil_iff_forall_not_mem.2 fun n hn => ?_
    exact hbooks.fresh n (hsame.mem_iff.2 hn) (List.mem_append_left _ hn)
  · intro hnil
    refine hperm.trans (.trans ?_ hheld.symm)
    rw [hnil, hbooks.none hnil]

/-! ## The whole pipeline -/

/-- Forking the stages changes only what the children have. -/
theorem Books.forkStages {launcher : Launcher} {lost : List ℕ} {done todo ss : List Setup}
    {pipes : List (ℕ × ℕ)} (rest : List Setup) (i : ℕ)
    (h : Books launcher base lost held done todo k) :
    Books launcher base lost held done todo (forkStages ss pipes i rest k) := by
  induction rest generalizing i k with
  | nil => exact h
  | cons s rest ih =>
    obtain ⟨kept, stale, leak, hbooks, hleak⟩ := h.parted
    rw [CShell.forkStages]
    refine ih (i + 1) ⟨h.fresh, kept, stale, leak, { hbooks with accounts := ?_ }, hleak⟩
    split
    · exact hbooks.accounts.fork _ _
    · exact hbooks.accounts

end

section
variable {base : Fds Desc} {stages : List Stage} {ss : List Setup} {k : Kernel}

/-- The stages have been set up. -/
structure SetUp (base : Fds Desc) (stages : List Stage) (ss : List Setup) (k : Kernel) : Prop where
  accounts : Accounts base (ss.flatMap Setup.closes ++ ss.flatMap Setup.lost) k
  fresh : ∀ s ∈ ss, s.Fresh
  stages : ss.map Setup.stage = stages

theorem setUp_setupStages (base : Fds Desc) (stages : List Stage) :
    SetUp base stages (setupStages 0 stages ⟨base, [], []⟩).1
      (setupStages 0 stages ⟨base, [], []⟩).2 := by
  obtain ⟨hacc, hfresh, hstages⟩ :=
    setupStages_accounts (k := ⟨base, [], []⟩) stages 0 ⟨.refl base, rfl⟩
  exact ⟨by simpa using hacc, hfresh, hstages⟩

namespace SetUp

theorem forall_stages (h : SetUp base stages ss k) {P : Stage → Prop} :
    (∀ s ∈ stages, P s) ↔ ∀ s ∈ ss, P s.stage := by
  rw [← h.stages, List.forall_mem_map]

theorem lost_eq_nil (h : SetUp base stages ss k) :
    ss.flatMap Setup.lost = [] ↔ ∀ s ∈ stages, s.InputCovered := by
  rw [List.flatMap_eq_nil_iff, h.forall_stages]
  exact forall₂_congr fun s hs => (h.fresh s hs).lost_eq_nil

theorem outputFds_eq_nil (h : SetUp base stages ss k) :
    ss.flatMap Setup.outputFds = [] ↔ ∀ s ∈ stages, ¬s.OutputsOpen := by
  rw [List.flatMap_eq_nil_iff, h.forall_stages]
  refine forall₂_congr fun s hs => ?_
  rw [← (h.fresh s hs).opened, not_not]

/-- With all pipes. -/
theorem unchanged_of_pipes (h : SetUp base stages ss k) (launcher : Launcher)
    {pipes : List (ℕ × ℕ)} {k' : Kernel}
    (hpipes : Accounts base (ends pipes ++ (ss.flatMap Setup.closes ++ ss.flatMap Setup.lost)) k') :
    Unchanged base
        ((forkStages (startCopiers launcher pipes stages.length 0 ss k').1 pipes 0
            (startCopiers launcher pipes stages.length 0 ss k').1
            (startCopiers launcher pipes stages.length 0 ss k').2).closeAll
          (shellCloses (startCopiers launcher pipes stages.length 0 ss k').1 pipes)) ↔
      ∀ s ∈ stages, s.InputCovered ∧ (launcher = .background → s.CopierCovered) := by
  have hlen : stages.length = ss.length := by rw [← h.stages, List.length_map]
  have hbooks : Books launcher base (ss.flatMap Setup.lost) (ends pipes) [] ss k' := by
    refine ⟨h.fresh, [], [], ss.flatMap Setup.lost, ⟨hpipes.perm ?_, .rfl, nofun, .refl _,
      fun _ => rfl⟩, by simp⟩
    refine List.perm_iff_count.2 fun n => ?_
    simp only [List.nil_append, List.count_append]
    omega
  obtain ⟨hdone, hstages⟩ := startCopiers_books pipes ss [] k' hbooks
  rw [hlen]
  refine (hdone.forkStages _ 0).restored_iff.trans ?_
  rw [List.nil_append, h.stages] at hstages
  rw [h.lost_eq_nil, forall₂_and]
  refine and_congr_right fun _ => ?_
  conv_rhs => rw [← hstages, List.forall_mem_map]
  rfl

/-- Without one of the pipes. -/
theorem unchanged_of_no_pipes (h : SetUp base stages ss k) {made : List (ℕ × ℕ)} {k' : Kernel}
    (hpipes : Accounts base (ends made ++ (ss.flatMap Setup.closes ++ ss.flatMap Setup.lost)) k') :
    (Unchanged base (k'.closeAll (ends made ++ ss.flatMap fun s =>
        s.inputFd.toList ++ if !s.setupFailed then s.outputFds else [])) ↔
      ∀ s ∈ stages, s.InputCovered) ∧
    (Unchanged base (k'.closeAll (ss.flatMap fun s => s.inputFd.toList)) ↔
      made = [] ∧ ∀ s ∈ stages, ¬s.OutputsOpen) := by
  have hcloses : ∀ s ∈ ss, s.closes =
      s.inputFd.toList ++ if !s.setupFailed then s.outputFds else [] := fun s hs =>
    (h.fresh s hs).closes_eq
  constructor
  · rw [unchanged_closeAll_iff hpipes, ← h.lost_eq_nil, ← List.flatMap_congr hcloses,
      List.perm_append_left_iff]
    constructor
    · intro hp
      have hlen := hp.length_eq
      rw [List.length_append] at hlen
      exact List.eq_nil_of_length_eq_zero (by omega)
    · intro hnil
      rw [hnil, List.append_nil]
  · have hown : (ss.flatMap Setup.closes ++ ss.flatMap Setup.lost).Perm
        (ss.flatMap (fun s => s.inputFd.toList) ++ ss.flatMap Setup.outputFds) := by
      refine (List.flatMap_append_perm ..).trans ?_
      rw [List.flatMap_congr fun s hs => (h.fresh s hs).closes_lost]
      exact (List.flatMap_append_perm ..).symm
    rw [unchanged_closeAll_iff (hpipes.perm (hown.append_left _)), ← h.outputFds_eq_nil]
    constructor
    · intro hp
      have hlen := hp.length_eq
      simp only [List.length_append] at hlen
      refine ⟨?_, List.eq_nil_of_length_eq_zero (by omega)⟩
      have hends : ends made = [] := List.eq_nil_of_length_eq_zero (by omega)
      cases made with
      | nil => rfl
      | cons p made => cases hends
    · rintro ⟨rfl, hnil⟩
      rw [hnil, List.append_nil]
      rfl

end SetUp

end

end CShell
