/-
  C-Shell formalization — the standard input and output of the stages.

  What each number of the shell's table refers to while a pipeline is set up, and from
  that the table of a stage at `execv`: whatever happens to the other stages, a stage
  for which every call succeeds reads from its input writer or from the stage before it,
  writes to its only file, to its output copier or to the stage after it, and has
  besides what the shell had, and perhaps output files of stages that failed.

  * `Wired`: what the shell's table holds, when the stages are forked;
  * `stage_wiring`: the table of a stage at `execv`.
-/
import CShell.Lib.Slots
import CShell.Shell.Leaks

namespace CShell

open Lib

/-! ## Opening -/

section
variable {k : Kernel} {n : ℕ} {d : Desc}

/-- Opening files: those opened are at numbers that were free, or all closed again. -/
theorem openFiles_at (file : ℕ → Desc) (oks : List Bool) (fds : List ℕ) (k : Kernel) :
    (∀ fds', (openFiles file oks fds k).1 = some fds' →
      ∃ new, fds' = fds ++ new ∧ new.length = oks.length ∧ (∀ n ∈ new, ∀ d, ¬k.fds.At n d) ∧
        ∀ n d, (openFiles file oks fds k).2.fds.At n d ↔
          k.fds.At n d ∨ ∃ m, new[m]? = some n ∧ d = file (fds.length + m)) ∧
      ((openFiles file oks fds k).1 = none →
        ∀ n d, (openFiles file oks fds k).2.fds.At n d ↔ n ∉ fds ∧ k.fds.At n d) := by
  induction oks generalizing fds k with
  | nil =>
    refine ⟨?_, fun h => by cases h⟩
    rintro fds' ⟨⟩
    exact ⟨[], by simp, rfl, by simp, by simp [openFiles]⟩
  | cons ok oks ih =>
    cases ok with
    | false =>
      simp only [openFiles, Bool.false_eq_true, if_false]
      refine ⟨?_, ?_⟩
      · intro _ h
        cases h
      · intro _ n d
        rw [(k.closeAll_eq fds).1, Fds.at_closeAll]
    | true =>
      simp only [openFiles, if_true]
      obtain ⟨hsome, hnone⟩ := ih (fds ++ [(k.open_ (file fds.length)).1])
        (k.open_ (file fds.length)).2
      have hlen (m : ℕ) :
          (fds ++ [(k.open_ (file fds.length)).1]).length + m = fds.length + (m + 1) := by
        rw [List.length_append, List.length_singleton, Nat.add_assoc, Nat.add_comm 1]
      refine ⟨?_, ?_⟩
      · intro fds' hf
        obtain ⟨new, rfl, hnew, hfree, hat⟩ := hsome fds' hf
        refine ⟨(k.open_ (file fds.length)).1 :: new, by simp, by simp [hnew], ?_, ?_⟩
        · rw [List.forall_mem_cons]
          refine ⟨fun d => Fds.not_at_lowest _ _, ?_⟩
          intro n hn d hd
          exact hfree n hn d (Fds.le_alloc _ _ _ _ hd)
        · intro n d
          rw [hat]
          simp only [Kernel.open_, Fds.at_alloc]
          constructor
          · rintro ((⟨rfl, rfl⟩ | h) | ⟨m, hm, rfl⟩)
            · exact .inr ⟨0, rfl, rfl⟩
            · exact .inl h
            · exact .inr ⟨m + 1, hm, congrArg file (hlen m)⟩
          · rintro (h | ⟨m, hm, rfl⟩)
            · exact .inl (.inr h)
            · cases m with
              | zero => exact .inl (.inl ⟨(Option.some.inj hm).symm, rfl⟩)
              | succ m => exact .inr ⟨m, hm, congrArg file (hlen m).symm⟩
      · intro hf n d
        rw [hnone hf, List.mem_append, not_or, List.mem_singleton]
        simp only [Kernel.open_, Fds.at_alloc]
        constructor
        · rintro ⟨⟨hn, hne⟩, ⟨rfl, -⟩ | h⟩
          · exact absurd rfl hne
          · exact ⟨hn, h⟩
        · rintro ⟨hn, h⟩
          refine ⟨⟨hn, ?_⟩, .inr h⟩
          rintro rfl
          exact Fds.not_at_lowest _ _ h

/-- A pipe whose ends are closed again leaves the table as it was. -/
theorem at_pipe_closed (k : Kernel) (p : PipeId) (ns : List ℕ) :
    ((k.pipe p).2.closeAll ((k.pipe p).1.1 :: (k.pipe p).1.2 :: ns)).fds.At n d ↔
      n ∉ ns ∧ k.fds.At n d := by
  rw [(Kernel.closeAll_eq _ _).1, Fds.at_closeAll, List.mem_cons, List.mem_cons, not_or, not_or]
  constructor
  · rintro ⟨⟨h₁, h₂, hn⟩, h⟩
    rcases Kernel.at_of_pipe h with ⟨rfl, -⟩ | ⟨rfl, -⟩ | h
    · exact absurd rfl h₁
    · exact absurd rfl h₂
    · exact ⟨hn, h⟩
  · rintro ⟨hn, h⟩
    refine ⟨⟨?_, ?_, hn⟩, (k.at_pipe p).2.2 _ _ h⟩
    · rintro rfl
      exact (k.pipe_free p d).1 h
    · rintro rfl
      exact (k.pipe_free p d).2 h

/-- Of the pipe to a stage from its input files the shell keeps the read end. -/
theorem setupInput_at (i : ℕ) (s : Stage) (k : Kernel) :
    (setupInput i s k).2.fds.At n d ↔
      k.fds.At n d ∨ (setupInput i s k).1 = some n ∧ d = .readEnd (.input i) := by
  obtain ⟨hsome, hnone⟩ := openFiles_at (.inFile i) s.inputs [] k
  rw [setupInput]
  rcases ho : openFiles (.inFile i) s.inputs [] k with ⟨_ | fds, k₁⟩
  · rw [ho] at hnone
    simpa using hnone rfl n d
  rw [ho] at hsome
  obtain ⟨new, hnew, -, hfree, hat⟩ := hsome fds rfl
  rw [List.nil_append] at hnew
  subst hnew
  -- closing the files leaves what was there before
  have hclose : n ∉ fds ∧ k₁.fds.At n d ↔ k.fds.At n d := by
    rw [hat]
    constructor
    · rintro ⟨hn, h | ⟨m, hm, -⟩⟩
      · exact h
      · exact absurd (List.mem_of_getElem? hm) hn
    · intro h
      exact ⟨fun hn => hfree n hn d h, .inl h⟩
  dsimp only
  split
  case isFalse =>
    rw [(Kernel.closeAll_eq _ _).1, Fds.at_closeAll, hclose]
    simp
  case isTrue =>
    split
    case isFalse =>
      have hpipe := at_pipe_closed (n := n) (d := d) k₁ (.input i) fds
      rw [hclose] at hpipe
      refine Iff.trans hpipe ?_
      simp
    case isTrue =>
      -- only the read end is left of the pipe
      show ((k₁.pipe (.input i)).2.fork _ _ |>.closeAll ((k₁.pipe (.input i)).1.2 :: fds)).fds.At
        n d ↔ _
      rw [(Kernel.closeAll_eq _ _).1, Fds.at_closeAll, List.mem_cons, not_or]
      obtain ⟨hr, hw, hle⟩ := k₁.at_pipe (.input i)
      constructor
      · rintro ⟨⟨hne, hn⟩, h⟩
        rcases Kernel.at_of_pipe h with ⟨rfl, rfl⟩ | ⟨rfl, -⟩ | h
        · exact .inr ⟨rfl, rfl⟩
        · exact absurd rfl hne
        · exact .inl (hclose.1 ⟨hn, h⟩)
      · rintro (h | ⟨h, rfl⟩)
        · obtain ⟨hn, h⟩ := hclose.2 h
          refine ⟨⟨?_, hn⟩, hle _ _ h⟩
          rintro rfl
          exact (k₁.pipe_free (.input i) d).2 h
        · obtain rfl := Option.some.inj h
          refine ⟨⟨?_, ?_⟩, hr⟩
          · intro heq
            rw [← heq] at hw
            cases hr.unique hw
          · intro hmem
            obtain ⟨m, hm⟩ := List.mem_iff_getElem?.1 hmem
            exact (k₁.pipe_free (.input i) _).1 ((hat _ _).2 (.inr ⟨m, hm, rfl⟩))

/-- What the numbers kept for stage `i` refer to. -/
def Setup.Own (i : ℕ) (s : Setup) (n : ℕ) (d : Desc) : Prop :=
  (s.inputFd = some n ∧ d = .readEnd (.input i)) ∨
    (∃ m, s.outputFds[m]? = some n ∧ d = .outFile i m) ∨
    ∃ p, s.outputPipe = some p ∧ s.setupFailed = false ∧
      (n = p.1 ∧ d = .readEnd (.output i) ∨ n = p.2 ∧ d = .writeEnd (.output i))

theorem setupStage_at (i : ℕ) (s : Stage) (k : Kernel) :
    (setupStage i s k).2.fds.At n d ↔ k.fds.At n d ∨ (setupStage i s k).1.Own i n d := by
  set inp := if s.inputs = [] then (none, k) else setupInput i s k with hinp
  have hin : ∀ n d, inp.2.fds.At n d ↔
      k.fds.At n d ∨ inp.1 = some n ∧ d = .readEnd (.input i) := by
    intro n d
    rw [hinp]
    split
    case isTrue => simp
    case isFalse => exact setupInput_at i s k
  obtain ⟨hsome, hnone⟩ := openFiles_at (.outFile i) s.outputs [] inp.2
  simp only [setupStage, ← hinp, Setup.Own]
  rcases ho : openFiles (.outFile i) s.outputs [] inp.2 with ⟨_ | fds, k₁⟩
  · rw [ho] at hnone
    simp [(hnone rfl n d), hin]
  · rw [ho] at hsome
    obtain ⟨new, hnew, -, -, hat⟩ := hsome fds rfl
    rw [List.nil_append] at hnew
    subst hnew
    simp [hat, hin, or_assoc]

theorem setupStages_at (i : ℕ) (stages : List Stage) (k : Kernel) :
    (setupStages i stages k).2.fds.At n d ↔ k.fds.At n d ∨
      ∃ (j : ℕ) (s : Setup), (setupStages i stages k).1[j]? = some s ∧ s.Own (i + j) n d := by
  induction stages generalizing i k with
  | nil => simp [setupStages]
  | cons s stages ih =>
    simp only [setupStages]
    rw [ih, setupStage_at]
    constructor
    · rintro ((h | h) | ⟨j, s', hs', h⟩)
      · exact .inl h
      · exact .inr ⟨0, _, rfl, h⟩
      · refine .inr ⟨j + 1, s', hs', ?_⟩
        rwa [← Nat.add_assoc, Nat.add_right_comm]
    · rintro (h | ⟨j, s', hs', h⟩)
      · exact .inl (.inl h)
      · cases j with
        | zero =>
          cases hs'
          exact .inl (.inr h)
        | succ j =>
          refine .inr ⟨j, s', hs', ?_⟩
          rwa [← Nat.add_assoc, Nat.add_right_comm] at h

/-- What the ends of the pipes between the stages refer to. -/
def PipeEnd (pipes : List (ℕ × ℕ)) (i n : ℕ) (d : Desc) : Prop :=
  ∃ j p, pipes[j]? = some p ∧
    (n = p.1 ∧ d = .readEnd (.between (i + j)) ∨ n = p.2 ∧ d = .writeEnd (.between (i + j)))

theorem makePipes_at (ok : ℕ → Bool) (todo i : ℕ) (k : Kernel) (hok : ∀ j < todo, ok (i + j)) :
    ∃ pipes k', makePipes ok todo i k = (some pipes, pipes, k') ∧ pipes.length = todo ∧
      k'.procs = k.procs ∧
      ∀ n d, k'.fds.At n d ↔ k.fds.At n d ∨ PipeEnd pipes i n d := by
  induction todo generalizing i k with
  | zero => exact ⟨[], k, rfl, rfl, rfl, by simp [PipeEnd]⟩
  | succ todo ih =>
    have hok' : ∀ j < todo, ok (i + 1 + j) := by
      intro j hj
      rw [Nat.add_assoc, Nat.add_comm 1]
      exact hok (j + 1) (Nat.succ_lt_succ hj)
    obtain ⟨pipes, k', hmake, hlen, hprocs, hat⟩ := ih (i + 1) (k.pipe (.between i)).2 hok'
    have hi : ok i = true := hok 0 (Nat.succ_pos _)
    refine ⟨(k.pipe (.between i)).1 :: pipes, k', ?_, by rw [List.length_cons, hlen], hprocs, ?_⟩
    · simp only [makePipes, hi, if_true, hmake, Option.map_some]
    · intro n d
      obtain ⟨hr, hw, hle⟩ := k.at_pipe (.between i)
      rw [hat]
      constructor
      · rintro (h | ⟨j, p, hp, h⟩)
        · rcases Kernel.at_of_pipe h with h | h | h
          · exact .inr ⟨0, _, rfl, .inl h⟩
          · exact .inr ⟨0, _, rfl, .inr h⟩
          · exact .inl h
        · refine .inr ⟨j + 1, p, hp, ?_⟩
          rwa [← Nat.add_assoc, Nat.add_right_comm]
      · rintro (h | ⟨j, p, hp, h⟩)
        · exact .inl (hle _ _ h)
        · cases j with
          | zero =>
            cases hp
            rcases h with ⟨rfl, rfl⟩ | ⟨rfl, rfl⟩
            · exact .inl hr
            · exact .inl hw
          | succ j =>
            refine .inr ⟨j, p, hp, ?_⟩
            rwa [← Nat.add_assoc, Nat.add_right_comm] at h

end

/-! ## The shell's table -/

/-- The table of the shell: what it had before, of which nothing is one of the new files
    and pipes, the pipes between the stages, and what is kept for each stage; the output
    files of a stage that has failed may be closed already. -/
structure Wired (base : Fds Desc) (pipes : List (ℕ × ℕ)) (ss : List Setup) (t : Fds Desc) :
    Prop where
  other : ∀ n d, base.At n d → ∃ m, d = .other m
  source : ∀ n d, t.At n d →
    base.At n d ∨ PipeEnd pipes 0 n d ∨ ∃ (j : ℕ) (s : Setup), ss[j]? = some s ∧ s.Own j n d
  base : base.Le t
  pipes : ∀ n d, PipeEnd pipes 0 n d → t.At n d
  input : ∀ (j : ℕ) (s : Setup) n, ss[j]? = some s → s.inputFd = some n →
    t.At n (.readEnd (.input j))
  own : ∀ (j : ℕ) (s : Setup), ss[j]? = some s → s.setupFailed = false →
    ∀ n d, s.Own j n d → t.At n d

section
variable {base t : Fds Desc} {pipes : List (ℕ × ℕ)} {ss : List Setup} {s : Setup} {k : Kernel}
  {i n : ℕ} {d : Desc}

/-- An output file of a stage is at a number of no other use. -/
theorem Wired.not_mem_outputFds (h : Wired base pipes ss t) (hs : ss[i]? = some s)
    (hf : s.setupFailed = false) (hat : t.At n d) (hd : ∀ m, d ≠ .outFile i m) :
    n ∉ s.outputFds := by
  intro hmem
  obtain ⟨m, hm⟩ := List.mem_iff_getElem?.1 hmem
  exact hd m (hat.unique (h.own i s hs hf n _ (.inr (.inl ⟨m, hm, rfl⟩))))

/-- A stage fails, and some of its output files are closed. -/
theorem Wired.fail (h : Wired base pipes ss k.fds) (hs : ss[i]? = some s)
    (hf : s.setupFailed = false) (hpipe : s.outputPipe = none) (q : Option (ℕ × ℕ))
    {ns : List ℕ} (hns : ns ⊆ s.outputFds) {t : Fds Desc}
    (ht : ∀ n d, t.At n d ↔ n ∉ ns ∧ k.fds.At n d) :
    Wired base pipes (ss.set i { s with outputPipe := q, setupFailed := true }) t := by
  have hkeep : ∀ n d, k.fds.At n d → (∀ m, d ≠ .outFile i m) → t.At n d := by
    intro n d hat hd
    refine (ht n d).2 ⟨?_, hat⟩
    exact fun hn => h.not_mem_outputFds hs hf hat hd (hns hn)
  refine ⟨h.other, ?_, ?_, ?_, ?_, ?_⟩
  · intro n d hat
    refine (h.source n d ((ht n d).1 hat).2).imp_right (Or.imp_right ?_)
    rintro ⟨j, x, hx, hown⟩
    by_cases hj : j = i
    · subst hj
      obtain rfl : x = s := Option.some.inj (hx.symm.trans hs)
      refine ⟨j, _, by rw [List.getElem?_set_self', hs]; rfl, ?_⟩
      rcases hown with hown | hown | ⟨p, hp, -⟩
      · exact .inl hown
      · exact .inr (.inl hown)
      · rw [hpipe] at hp
        cases hp
    · exact ⟨j, x, by rw [List.getElem?_set_ne (Ne.symm hj), hx], hown⟩
  · intro n d hb
    refine hkeep n d (h.base n d hb) ?_
    obtain ⟨m, rfl⟩ := h.other n d hb
    exact nofun
  · rintro n d ⟨j, p, hp, hd⟩
    refine hkeep n d (h.pipes n d ⟨j, p, hp, hd⟩) ?_
    rcases hd with ⟨-, rfl⟩ | ⟨-, rfl⟩
    · exact nofun
    · exact nofun
  · intro j x n hx hn
    rcases getElem?_set_cases hx with ⟨rfl, rfl⟩ | ⟨-, hx⟩
    · exact hkeep n _ (h.input j s n hs hn) nofun
    · exact hkeep n _ (h.input j x n hx hn) nofun
  · intro j x hx hxf n d hown
    rcases getElem?_set_cases hx with ⟨rfl, rfl⟩ | ⟨hj, hx⟩
    · cases hxf
    · refine hkeep n d (h.own j x hx hxf n d hown) ?_
      rintro m rfl
      rcases hown with ⟨-, hd⟩ | ⟨m', -, hd⟩ | ⟨p, -, -, ⟨-, hd⟩ | ⟨-, hd⟩⟩
      · cases hd
      · cases hd
        exact hj rfl
      · cases hd
      · cases hd

/-- A stage gets its copier. -/
theorem Wired.copy (h : Wired base pipes ss k.fds) (hs : ss[i]? = some s)
    (hf : s.setupFailed = false) (hpipe : s.outputPipe = none) :
    Wired base pipes (ss.set i { s with outputPipe := some (k.pipe (.output i)).1 })
      (k.pipe (.output i)).2.fds := by
  obtain ⟨hr, hw, hle⟩ := k.at_pipe (.output i)
  have hset : (ss.set i { s with outputPipe := some (k.pipe (.output i)).1 })[i]? =
      some { s with outputPipe := some (k.pipe (.output i)).1 } := by
    rw [List.getElem?_set_self', hs]
    rfl
  refine ⟨h.other, ?_, fun n d hb => hle _ _ (h.base n d hb),
    fun n d hp => hle _ _ (h.pipes n d hp), ?_, ?_⟩
  · intro n d hat
    rcases Kernel.at_of_pipe hat with hd | hd | hat
    · exact .inr (.inr ⟨i, _, hset, .inr (.inr ⟨_, rfl, hf, .inl hd⟩)⟩)
    · exact .inr (.inr ⟨i, _, hset, .inr (.inr ⟨_, rfl, hf, .inr hd⟩)⟩)
    · refine (h.source n d hat).imp_right (Or.imp_right ?_)
      rintro ⟨j, x, hx, hown⟩
      by_cases hj : j = i
      · subst hj
        obtain rfl : x = s := Option.some.inj (hx.symm.trans hs)
        refine ⟨j, _, hset, ?_⟩
        rcases hown with hown | hown | ⟨p, hp, -⟩
        · exact .inl hown
        · exact .inr (.inl hown)
        · rw [hpipe] at hp
          cases hp
      · exact ⟨j, x, by rw [List.getElem?_set_ne (Ne.symm hj), hx], hown⟩
  · intro j x n hx hn
    rcases getElem?_set_cases hx with ⟨rfl, rfl⟩ | ⟨-, hx⟩
    · exact hle _ _ (h.input j s n hs hn)
    · exact hle _ _ (h.input j x n hx hn)
  · intro j x hx hxf n d hown
    rcases getElem?_set_cases hx with ⟨rfl, rfl⟩ | ⟨-, hx⟩
    · rcases hown with hown | hown | ⟨p, hp, -, hd⟩
      · exact hle _ _ (h.own j s hs hf n d (.inl hown))
      · exact hle _ _ (h.own j s hs hf n d (.inr (.inl hown)))
      · obtain rfl := Option.some.inj hp
        rcases hd with ⟨rfl, rfl⟩ | ⟨rfl, rfl⟩
        · exact hr
        · exact hw
    · exact hle _ _ (h.own j x hx hxf n d hown)

end

/-! ## Which stages are set up -/

/-- Every call made for the stage succeeds, up to its `fork`. -/
def Stage.Launches (s : Stage) : Prop :=
  s.InputOk ∧ (∀ ok ∈ s.outputs, ok) ∧ (1 < s.outputs.length → s.pipeOut ∧ s.forkOut)

/-- What is kept for a stage whose setup has not failed. -/
structure Setup.Filled (s : Setup) : Prop where
  input : s.inputFd = none ↔ s.stage.inputs = []
  output : s.outputFds.length = s.stage.outputs.length

/-- A stage after its setup. -/
structure Setup.Begun (s : Setup) : Prop where
  pipe : s.outputPipe = none
  failed : s.setupFailed = false ↔ s.stage.InputOk ∧ ∀ ok ∈ s.stage.outputs, ok
  filled : s.setupFailed = false → s.Filled

/-- A stage with its copier, if it needs one. -/
structure Setup.Done (s : Setup) : Prop where
  failed : s.setupFailed = false ↔ s.stage.Launches
  filled : s.setupFailed = false → s.Filled
  pipe : s.setupFailed = false → (s.outputPipe ≠ none ↔ 1 < s.stage.outputs.length)

theorem Setup.Done.of_failed {s : Setup} (hf : s.setupFailed = true) (hl : ¬s.stage.Launches) :
    s.Done := by
  refine ⟨iff_of_false (by simp [hf]) hl, ?_, ?_⟩
  · rw [hf]
    exact nofun
  · rw [hf]
    exact nofun

/-- No stage has been forked. -/
def Kernel.NoStage (k : Kernel) : Prop := ∀ i t, (Role.stage i, t) ∉ k.procs

section
variable {base : Fds Desc} {pipes : List (ℕ × ℕ)} {ss : List Setup} {s : Setup} {k : Kernel}
  {i : ℕ}

theorem Kernel.NoStage.fork {role : Role} (h : k.NoStage) (hr : ∀ i, role ≠ .stage i)
    (child : Fds Desc → Fds Desc) : (k.fork role child).NoStage := by
  intro i t hmem
  rcases List.mem_append.1 hmem with hmem | hmem
  · exact h i t hmem
  · exact hr i (congrArg Prod.fst (List.mem_singleton.1 hmem)).symm

theorem Kernel.NoStage.closeAll (h : k.NoStage) (ns : List ℕ) : (k.closeAll ns).NoStage := by
  intro i t
  rw [(k.closeAll_eq ns).2]
  exact h i t

theorem openFiles_noStage (file : ℕ → Desc) (oks : List Bool) (fds : List ℕ) (h : k.NoStage) :
    (openFiles file oks fds k).2.NoStage := by
  induction oks generalizing fds k with
  | nil => exact h
  | cons ok oks ih =>
    rw [openFiles]
    split
    · exact ih _ h
    · exact h.closeAll fds

theorem setupInput_begun (i : ℕ) (s : Stage) (h : k.NoStage) :
    (setupInput i s k).2.NoStage ∧
      ((setupInput i s k).1 ≠ none ↔ (∀ ok ∈ s.inputs, ok) ∧ s.pipeIn ∧ s.forkIn) := by
  have hno := openFiles_noStage (.inFile i) s.inputs [] h
  have hall := (openFiles_sets (.inFile i) (fun _ _ h => by cases h) s.inputs (Sets.refl k)
    (List.forall_mem_nil _)).2.1
  rw [setupInput]
  rcases ho : openFiles (.inFile i) s.inputs [] k with ⟨_ | fds, k₁⟩
  · rw [ho] at hno hall
    exact ⟨hno, iff_of_false (fun h => h rfl) fun h => absurd (hall.2 h.1) (by simp)⟩
  rw [ho] at hno hall
  have hfiles : ∀ ok ∈ s.inputs, ok := hall.1 rfl
  have hpipe : (k₁.pipe (.input i)).2.NoStage := hno
  dsimp only
  split
  case isTrue =>
    split
    case isTrue hp hf =>
      refine ⟨((hpipe.fork (fun _ h => by cases h) _).closeAll [_]).closeAll fds, ?_⟩
      exact iff_of_true (fun h => by cases h) ⟨hfiles, hp, hf⟩
    case isFalse hp hf =>
      refine ⟨((hpipe.closeAll [_]).closeAll [_]).closeAll fds, ?_⟩
      exact iff_of_false (fun h => h rfl) fun h => hf h.2.2
  case isFalse hp => exact ⟨hno.closeAll fds, iff_of_false (fun h => h rfl) fun h => hp h.2.1⟩

theorem setupStage_begun (i : ℕ) (s : Stage) (h : k.NoStage) :
    (setupStage i s k).2.NoStage ∧ (setupStage i s k).1.Begun := by
  set inp := if s.inputs = [] then (none, k) else setupInput i s k with hinp
  have hin : inp.2.NoStage ∧ ((s.inputs ≠ [] ∧ inp.1 = none) ↔ ¬s.InputOk) ∧
      (s.inputs = [] → inp.1 = none) := by
    rw [hinp]
    split
    case isTrue hs => exact ⟨h, by simp [Stage.InputOk, hs], fun _ => rfl⟩
    case isFalse hs =>
      obtain ⟨hno, hsome⟩ := setupInput_begun i s h
      refine ⟨hno, ?_, fun h => absurd h hs⟩
      rw [Stage.InputOk, ← hsome, not_or, not_not]
  have hno := openFiles_noStage (.outFile i) s.outputs [] hin.1
  have hall := (openFiles_sets (.outFile i) (fun _ _ h => by cases h) s.outputs (Sets.refl inp.2)
    (List.forall_mem_nil _)).2.1
  obtain ⟨hsome, -⟩ := openFiles_at (.outFile i) s.outputs [] inp.2
  have hfailed : (setupStage i s k).1.setupFailed = false ↔
      s.InputOk ∧ ∀ ok ∈ s.outputs, ok := by
    simp only [setupStage, ← hinp]
    rw [decide_eq_false_iff_not, not_or, hin.2.1, not_not, ← hall, Option.isSome_iff_ne_none]
  refine ⟨by simpa only [setupStage, ← hinp] using hno, rfl, hfailed, ?_⟩
  intro hf
  obtain ⟨hok, hout⟩ := hfailed.1 hf
  obtain ⟨fds, hfds⟩ := Option.isSome_iff_exists.1 (hall.2 hout)
  obtain ⟨new, hnew, hlen, -⟩ := hsome fds hfds
  simp only [setupStage, ← hinp]
  refine ⟨⟨?_, hin.2.2⟩, ?_⟩
  · intro hnone
    by_contra hne
    exact hin.2.1.1 ⟨hne, hnone⟩ hok
  · rw [hfds, Option.getD_some, hnew, List.nil_append, hlen]

theorem setupStages_begun (i : ℕ) (stages : List Stage) (h : k.NoStage) :
    (setupStages i stages k).2.NoStage ∧ ∀ s ∈ (setupStages i stages k).1, s.Begun := by
  induction stages generalizing i k with
  | nil => exact ⟨h, nofun⟩
  | cons s stages ih =>
    obtain ⟨hno, hs⟩ := setupStage_begun i s h
    obtain ⟨hno', hss⟩ := ih (i + 1) hno
    exact ⟨hno', List.forall_mem_cons.2 ⟨hs, hss⟩⟩

/-- The copier of a stage, or its failure. -/
theorem startCopier_wired (launcher : Launcher) (h : Wired base pipes ss k.fds)
    (hs : ss[i]? = some s) (hb : s.Begun) (hno : k.NoStage) :
    Wired base pipes (ss.set i (startCopier launcher ss pipes i s k).1)
        (startCopier launcher ss pipes i s k).2.fds ∧
      (startCopier launcher ss pipes i s k).1.Done ∧
      (startCopier launcher ss pipes i s k).2.NoStage := by
  have hsame : ss.set i s = ss := by
    obtain ⟨hi, rfl⟩ := List.getElem?_eq_some_iff.1 hs
    exact List.set_getElem_self hi
  rw [startCopier.eq_def]
  split
  case isFalse hc =>
    refine ⟨hsame.symm ▸ h, ⟨?_, hb.filled, ?_⟩, hno⟩
    · rw [hb.failed]
      constructor
      · rintro ⟨hin, hout⟩
        refine ⟨hin, hout, fun hlen => absurd ⟨hlen, ?_⟩ hc⟩
        simp [hb.failed.2 ⟨hin, hout⟩]
      · exact fun hl => ⟨hl.1, hl.2.1⟩
    · intro hf
      refine iff_of_false (fun hp => hp hb.pipe) ?_
      exact fun hlen => hc ⟨hlen, by rw [show s.setupFailed = false from hf]; rfl⟩
  case isTrue hc =>
    have hf : s.setupFailed = false := by simpa using hc.2
    obtain ⟨hin, hout⟩ := hb.failed.1 hf
    have hno' : (k.pipe (.output i)).2.NoStage := hno
    split
    case isTrue hp =>
      dsimp only
      split
      case isTrue hfork =>
        refine ⟨h.copy hs hf hb.pipe, ⟨iff_of_true hf ⟨hin, hout, fun _ => ⟨hp, hfork⟩⟩, ?_, ?_⟩,
          hno'.fork (fun _ h => by cases h) _⟩
        · exact fun hf => ⟨(hb.filled hf).input, (hb.filled hf).output⟩
        · exact fun _ => iff_of_true (fun h => by cases h) hc.1
      case isFalse hfork =>
        have hbad : ¬s.stage.Launches := fun hl => hfork (hl.2.2 hc.1).2
        cases launcher with
        | foreground =>
          dsimp only
          refine ⟨h.fail hs hf hb.pipe _ (List.Subset.refl _) ?_, .of_failed rfl hbad,
            hno'.closeAll _⟩
          intro n d
          exact at_pipe_closed k (.output i) s.outputFds
        | background =>
          dsimp only
          refine ⟨h.fail hs hf hb.pipe _ (List.nil_subset _) ?_, .of_failed rfl hbad,
            hno'.closeAll _⟩
          intro n d
          exact at_pipe_closed k (.output i) []
    case isFalse hp =>
      have hbad : ¬s.stage.Launches := fun hl => hp (hl.2.2 hc.1).1
      cases launcher with
      | foreground =>
        dsimp only
        refine ⟨h.fail hs hf hb.pipe _ (List.Subset.refl _) ?_, .of_failed rfl hbad,
          hno.closeAll _⟩
        intro n d
        rw [(k.closeAll_eq _).1, Fds.at_closeAll]
      | background =>
        dsimp only
        refine ⟨h.fail hs hf hb.pipe _ (List.nil_subset _) ?_, .of_failed rfl hbad, hno⟩
        simp

theorem startCopiers_wired (launcher : Launcher) (todo done : List Setup) (k : Kernel)
    (h : Wired base pipes (done ++ todo) k.fds) (hb : ∀ s ∈ todo, s.Begun)
    (hd : ∀ s ∈ done, s.Done) (hno : k.NoStage) :
    let r := startCopiers launcher pipes todo.length done.length (done ++ todo) k
    Wired base pipes r.1 r.2.fds ∧ (∀ s ∈ r.1, s.Done) ∧ r.2.NoStage ∧
      r.1.map Setup.stage = (done ++ todo).map Setup.stage := by
  induction todo generalizing done k with
  | nil =>
    rw [List.append_nil] at h ⊢
    exact ⟨h, hd, hno, rfl⟩
  | cons s todo ih =>
    obtain ⟨hs, hb⟩ := List.forall_mem_cons.1 hb
    have hget : (done ++ s :: todo)[done.length]? = some s := by simp
    have hset (s' : Setup) : (done ++ s :: todo).set done.length s' = (done ++ [s']) ++ todo := by
      simp
    obtain ⟨hw, hdone, hno'⟩ := startCopier_wired launcher h hget hs hno
    rw [hset] at hw
    have hd' : ∀ x ∈ done ++ [(startCopier launcher (done ++ s :: todo) pipes done.length s k).1],
        x.Done := by
      rw [List.forall_mem_append]
      exact ⟨hd, List.forall_mem_singleton.2 hdone⟩
    have h' := ih _ _ hw hb hd' hno'
    rw [List.length_append, List.length_singleton, ← hset] at h'
    simp only [List.length_cons, startCopiers, hget]
    refine ⟨h'.1, h'.2.1, h'.2.2.1, h'.2.2.2.trans ?_⟩
    simp [startCopier_stage]

/-- What the processes are for. -/
def Kernel.roles (k : Kernel) : List Role := k.procs.map Prod.fst

@[simp] theorem Kernel.roles_fork (role : Role) (child : Fds Desc → Fds Desc) (k : Kernel) :
    (k.fork role child).roles = k.roles ++ [role] := List.map_append

theorem Kernel.NoStage.count_roles (h : k.NoStage) (i : ℕ) : k.roles.count (.stage i) = 0 := by
  rw [List.count_eq_zero, Kernel.roles]
  rintro hmem
  obtain ⟨⟨-, t⟩, hp, rfl⟩ := List.mem_map.1 hmem
  exact h i t hp

/-- The stages before are not forked again. -/
theorem count_forkStages_of_lt (i : ℕ) (rest : List Setup) (k : Kernel) {j : ℕ} (h : j < i) :
    (forkStages ss pipes i rest k).roles.count (.stage j) = k.roles.count (.stage j) := by
  induction rest generalizing i k with
  | nil => rfl
  | cons s rest ih =>
    have hne : Role.stage i ≠ .stage j := by
      rw [Ne, Role.stage.injEq]
      omega
    rw [forkStages, ih _ _ (Nat.lt_succ_of_lt h)]
    split
    · rw [Kernel.roles_fork, List.count_append, List.count_singleton, beq_eq_false_iff_ne.2 hne]
      rfl
    · rfl

/-- A stage is forked once. -/
theorem count_forkStages (i : ℕ) (rest : List Setup) (k : Kernel) {m : ℕ} {s : Setup}
    (hs : rest[m]? = some s) (hf : s.stage.forkStage) :
    (forkStages ss pipes i rest k).roles.count (.stage (i + m)) =
      k.roles.count (.stage (i + m)) + 1 := by
  induction rest generalizing i k m with
  | nil => cases hs
  | cons s' rest ih =>
    cases m with
    | zero =>
      cases hs
      rw [forkStages, if_pos hf, Nat.add_zero, count_forkStages_of_lt _ _ _ (Nat.lt_succ_self i)]
      simp
    | succ m =>
      have hne : Role.stage i ≠ .stage (i + 1 + m) := by
        rw [Ne, Role.stage.injEq]
        omega
      rw [forkStages, show i + (m + 1) = i + 1 + m by omega, ih (i + 1) _ hs]
      split
      · rw [Kernel.roles_fork, List.count_append, List.count_singleton, beq_eq_false_iff_ne.2 hne]
        rfl
      · rfl

theorem mem_forkStages (i : ℕ) (rest : List Setup) (k : Kernel) {j : ℕ} {t : Fds Desc} :
    (Role.stage j, t) ∈ (forkStages ss pipes i rest k).procs ↔
      (Role.stage j, t) ∈ k.procs ∨ ∃ (m : ℕ) (s : Setup), j = i + m ∧ rest[m]? = some s ∧
        s.stage.forkStage ∧ t = stageChild ss pipes j s k.fds := by
  induction rest generalizing i k with
  | nil => simp [forkStages]
  | cons s rest ih =>
    have hmem : (Role.stage j, t) ∈ (if s.stage.forkStage = true then
        k.fork (.stage i) (stageChild ss pipes i s) else k).procs ↔
          (Role.stage j, t) ∈ k.procs ∨
            j = i ∧ s.stage.forkStage ∧ t = stageChild ss pipes i s k.fds := by
      split
      case isTrue hf => simp [Kernel.fork, hf]
      case isFalse hf => simp [hf]
    have hfds : (if s.stage.forkStage = true then
        k.fork (.stage i) (stageChild ss pipes i s) else k).fds = k.fds := by
      split <;> rfl
    rw [forkStages, ih, hmem, hfds, or_assoc]
    refine or_congr_right ?_
    constructor
    · rintro (⟨rfl, hf, rfl⟩ | ⟨m, s', rfl, hs', hf, rfl⟩)
      · exact ⟨0, s, rfl, rfl, hf, rfl⟩
      · exact ⟨m + 1, s', by omega, hs', hf, rfl⟩
    · rintro ⟨m, s', rfl, hs', hf, rfl⟩
      cases m with
      | zero =>
        cases hs'
        exact .inl ⟨rfl, hf, rfl⟩
      | succ m => exact .inr ⟨m, s', by omega, hs', hf, rfl⟩

end

/-! ## The table of a stage -/

/-- What stage `i` reads from; `d` is the standard input of the shell. -/
def Stage.stdin (i : ℕ) (s : Stage) (d : Desc) : Desc :=
  if s.inputs ≠ [] then .readEnd (.input i)
  else if 0 < i then .readEnd (.between (i - 1))
  else d

/-- What stage `i` of `count` writes to; `d` is the standard output of the shell. -/
def Stage.stdout (count i : ℕ) (s : Stage) (d : Desc) : Desc :=
  match s.outputs.length with
  | 0 => if i + 1 < count then .writeEnd (.between i) else d
  | 1 => .outFile i 0
  | _ => .writeEnd (.output i)

section
variable {base t : Fds Desc} {pipes : List (ℕ × ℕ)} {ss : List Setup} {s : Setup} {i : ℕ}
  {d₀ d₁ : Desc}

theorem dup2OrExit_at {src : Option ℕ} {b : ℕ} {x d : Desc} (hb : t.At b x)
    (hd : ∀ n, src = some n → t.At n d) (hx : src = none → d = x) :
    ∃ t', dup2OrExit src b (some t) = some t' ∧
      ∀ m o, t'.At m o ↔ (m = b ∧ o = d) ∨ (m ≠ b ∧ t.At m o) := by
  cases src with
  | some n => exact Fds.dup2_at (hd n rfl) hb
  | none =>
    refine ⟨t, rfl, ?_⟩
    intro m o
    rw [hx rfl]
    constructor
    · intro hat
      by_cases hm : m = b
      · subst hm
        exact .inl ⟨rfl, hat.unique hb⟩
      · exact .inr ⟨hm, hat⟩
    · rintro (⟨rfl, rfl⟩ | ⟨-, hat⟩)
      · exact hb
      · exact hat

theorem mem_stageCloses {n : ℕ} : n ∈ stageCloses ss pipes ↔ n ∈ ends pipes ∨
    ∃ s ∈ ss, s.inputFd = some n ∨
      (s.stage.outputs ≠ [] ∧ s.setupFailed = false ∧ n ∈ s.outputFds) ∨
      (1 < s.stage.outputs.length ∧ s.setupFailed = false ∧
        ∃ p, s.outputPipe = some p ∧ (n = p.1 ∨ n = p.2)) := by
  rw [stageCloses, List.mem_append, List.mem_flatMap]
  refine or_congr_right (exists_congr fun s => and_congr_right fun _ => ?_)
  rw [List.mem_append, Setup.fds, List.mem_append, or_assoc]
  refine or_congr (by simp) (or_congr ?_ ?_)
  · split
    case isTrue h => simp_all
    case isFalse h => simpa using fun h₁ h₂ => absurd ⟨h₁, by simp [h₂]⟩ h
  · split
    case isTrue h => simp_all
    case isFalse h => simpa using fun h₁ h₂ => absurd ⟨h₁, by simp [h₂]⟩ h

/-- What a stage closes is open, and new. -/
theorem Wired.stageCloses_new (h : Wired base pipes ss t) {n : ℕ} (hn : n ∈ stageCloses ss pipes) :
    ∃ d, t.At n d ∧ ∀ m, d ≠ .other m := by
  rw [mem_stageCloses] at hn
  rcases hn with hn | ⟨s, hs, hn⟩
  · obtain ⟨p, hp, hn⟩ := List.mem_flatMap.1 hn
    obtain ⟨j, hj⟩ := List.mem_iff_getElem?.1 hp
    rcases List.mem_cons.1 hn with rfl | hn
    · exact ⟨_, h.pipes _ _ ⟨j, p, hj, .inl ⟨rfl, rfl⟩⟩, nofun⟩
    · obtain rfl := List.mem_singleton.1 hn
      exact ⟨_, h.pipes _ _ ⟨j, p, hj, .inr ⟨rfl, rfl⟩⟩, nofun⟩
  · obtain ⟨j, hj⟩ := List.mem_iff_getElem?.1 hs
    rcases hn with hn | ⟨-, hf, hn⟩ | ⟨-, hf, p, hp, hn⟩
    · exact ⟨_, h.input j s n hj hn, nofun⟩
    · obtain ⟨m, hm⟩ := List.mem_iff_getElem?.1 hn
      exact ⟨_, h.own j s hj hf n _ (.inr (.inl ⟨m, hm, rfl⟩)), nofun⟩
    · rcases hn with rfl | rfl
      · exact ⟨_, h.own j s hj hf _ _ (.inr (.inr ⟨p, hp, hf, .inl ⟨rfl, rfl⟩⟩)), nofun⟩
      · exact ⟨_, h.own j s hj hf _ _ (.inr (.inr ⟨p, hp, hf, .inr ⟨rfl, rfl⟩⟩)), nofun⟩

/-- What is open besides is what the shell had, or an output file of a stage that failed. -/
theorem Wired.not_closed (h : Wired base pipes ss t) (hd : ∀ s ∈ ss, s.Done) {n : ℕ} {d : Desc}
    (hat : t.At n d) (hn : n ∉ stageCloses ss pipes) :
    base.At n d ∨ ∃ (j m : ℕ) (s : Setup), d = .outFile j m ∧ ss[j]? = some s ∧
      ¬s.stage.Launches := by
  rw [mem_stageCloses, not_or] at hn
  obtain ⟨hends, hn⟩ := hn
  rcases h.source n d hat with hb | ⟨j, p, hp, hd⟩ | ⟨j, s, hs, hown⟩
  · exact .inl hb
  · refine absurd (List.mem_flatMap.2 ⟨p, List.mem_of_getElem? hp, ?_⟩) hends
    rcases hd with ⟨rfl, -⟩ | ⟨rfl, -⟩ <;> simp
  · have hmem := List.mem_of_getElem? hs
    have hdone := hd s hmem
    rcases hown with ⟨hin, -⟩ | ⟨m, hm, rfl⟩ | ⟨p, hp, hf, hd⟩
    · exact absurd ⟨s, hmem, .inl hin⟩ hn
    · refine .inr ⟨j, m, s, rfl, hs, ?_⟩
      intro hl
      have hf := hdone.failed.2 hl
      have hout := List.mem_of_getElem? hm
      have hne : s.stage.outputs ≠ [] := by
        intro hnil
        have hlen := (hdone.filled hf).output
        rw [hnil] at hlen
        rw [List.eq_nil_of_length_eq_zero hlen] at hout
        cases hout
      exact hn ⟨s, hmem, .inr (.inl ⟨hne, hf, hout⟩)⟩
    · refine absurd ⟨s, hmem, .inr (.inr ⟨(hdone.pipe hf).1 (by simp [hp]), hf, p, hp, ?_⟩)⟩ hn
      exact hd.imp And.left And.left

/-- The number `stageChild` makes standard input. -/
def Setup.stdinFd (pipes : List (ℕ × ℕ)) (i : ℕ) (s : Setup) : Option ℕ :=
  match s.inputFd with
  | some n => some n
  | none => if 0 < i then pipes[i - 1]?.map Prod.fst else none

/-- The number `stageChild` makes standard output. -/
def Setup.stdoutFd (pipes : List (ℕ × ℕ)) (count i : ℕ) (s : Setup) : Option ℕ :=
  match s.stage.outputs.length with
  | 0 => if i < count - 1 then pipes[i]?.map Prod.snd else none
  | 1 => s.outputFds.head?
  | _ => s.outputPipe.map Prod.snd

theorem stageChild_eq (hf : s.setupFailed = false) (hfound : s.stage.found = true) :
    stageChild ss pipes i s t =
      match dup2OrExit (s.stdoutFd pipes ss.length i) 1
        (dup2OrExit (s.stdinFd pipes i) 0 (some t)) with
      | some t => t.closeAll (stageCloses ss pipes)
      | none => [] := by
  rw [stageChild, if_neg (by simp [hf, hfound])]
  rfl

/-- The number made standard input is new, and refers to what the stage reads from. -/
theorem Wired.stdinFd (h : Wired base pipes ss t) (d₀ : Desc) (hlen : pipes.length = ss.length - 1)
    (hs : ss[i]? = some s) (hfill : s.Filled) :
    (∀ n, s.stdinFd pipes i = some n →
      t.At n (s.stage.stdin i d₀) ∧ ∀ m, s.stage.stdin i d₀ ≠ .other m) ∧
      (s.stdinFd pipes i = none → s.stage.stdin i d₀ = d₀) := by
  obtain ⟨hi, -⟩ := List.getElem?_eq_some_iff.1 hs
  rw [Setup.stdinFd, Stage.stdin]
  rcases hin : s.inputFd with _ | n₀
  · rw [if_neg (not_not.2 (hfill.input.1 hin))]
    dsimp only
    split
    case isFalse => exact ⟨nofun, fun _ => rfl⟩
    case isTrue hpos =>
      have hp : pipes[i - 1]? = some pipes[i - 1] := List.getElem?_eq_getElem (by omega)
      rw [hp]
      refine ⟨?_, fun h => by cases h⟩
      rintro n ⟨⟩
      have hat := h.pipes _ _ ⟨i - 1, _, hp, .inl ⟨rfl, rfl⟩⟩
      rw [Nat.zero_add] at hat
      exact ⟨hat, nofun⟩
  · have hne : s.stage.inputs ≠ [] := by
      intro hnil
      rw [hfill.input.2 hnil] at hin
      cases hin
    rw [if_pos hne]
    refine ⟨?_, fun h => by cases h⟩
    rintro n ⟨⟩
    exact ⟨h.input i s _ hs hin, nofun⟩

/-- The number made standard output is new, and refers to what the stage writes to. -/
theorem Wired.stdoutFd (h : Wired base pipes ss t) (d₁ : Desc) (hlen : pipes.length = ss.length - 1)
    (hs : ss[i]? = some s) (hf : s.setupFailed = false) (hdone : s.Done) :
    (∀ n, s.stdoutFd pipes ss.length i = some n →
      t.At n (s.stage.stdout ss.length i d₁) ∧ ∀ m, s.stage.stdout ss.length i d₁ ≠ .other m) ∧
      (s.stdoutFd pipes ss.length i = none → s.stage.stdout ss.length i d₁ = d₁) := by
  have hfds := (hdone.filled hf).output
  have hpipe := (hdone.pipe hf).2
  rw [Setup.stdoutFd, Stage.stdout]
  rcases hout : s.stage.outputs.length with _ | _ | more
  · by_cases hi : i + 1 < ss.length
    · have hp : pipes[i]? = some pipes[i] := List.getElem?_eq_getElem (by omega)
      rw [if_pos (by omega), if_pos hi, hp]
      refine ⟨?_, fun h => by cases h⟩
      rintro n ⟨⟩
      have hat := h.pipes _ _ ⟨i, _, hp, .inr ⟨rfl, rfl⟩⟩
      rw [Nat.zero_add] at hat
      exact ⟨hat, nofun⟩
    · rw [if_neg (by omega), if_neg hi]
      exact ⟨nofun, fun _ => rfl⟩
  · rw [hout] at hfds
    obtain ⟨n₀, hn₀⟩ := List.length_eq_one_iff.1 hfds
    rw [hn₀]
    refine ⟨?_, fun h => by cases h⟩
    rintro n ⟨⟩
    exact ⟨h.own i s hs hf _ _ (.inr (.inl ⟨0, by rw [hn₀]; rfl, rfl⟩)), nofun⟩
  · obtain ⟨p, hp⟩ := Option.ne_none_iff_exists'.1 (hpipe (by omega))
    rw [hp]
    refine ⟨?_, fun h => by cases h⟩
    rintro n ⟨⟩
    exact ⟨h.own i s hs hf _ _ (.inr (.inr ⟨p, hp, hf, .inr ⟨rfl, rfl⟩⟩)), nofun⟩

/-- The table of a stage at `execv`. -/
theorem Wired.stageChild_at (h : Wired base pipes ss t) (hlen : pipes.length = ss.length - 1)
    (h₀ : base.At 0 d₀) (h₁ : base.At 1 d₁) (hs : ss[i]? = some s) (hdone : s.Done)
    (hl : s.stage.Launches) (hfound : s.stage.found = true) (n : ℕ) (d : Desc) :
    (stageChild ss pipes i s t).At n d ↔
      (n = 0 ∧ d = s.stage.stdin i d₀) ∨ (n = 1 ∧ d = s.stage.stdout ss.length i d₁) ∨
        (2 ≤ n ∧ n ∉ stageCloses ss pipes ∧ t.At n d) := by
  have hf := hdone.failed.2 hl
  -- what is at the numbers of the shell's own files is not closed
  have hold : ∀ {n d}, base.At n d → n ∉ stageCloses ss pipes := by
    intro n d hb hn
    obtain ⟨d', hat, hnew⟩ := h.stageCloses_new hn
    obtain ⟨m, rfl⟩ := h.other n d hb
    exact hnew m (hat.unique (h.base _ _ hb))
  obtain ⟨hin, hin'⟩ := h.stdinFd d₀ hlen hs (hdone.filled hf)
  obtain ⟨hout, hout'⟩ := h.stdoutFd d₁ hlen hs hf hdone
  obtain ⟨t₀, ht₀, hat₀⟩ := dup2OrExit_at (h.base _ _ h₀) (fun n hn => (hin n hn).1) hin'
  have hone : t₀.At 1 d₁ := (hat₀ _ _).2 (.inr ⟨Nat.one_ne_zero, h.base _ _ h₁⟩)
  have hsrc : ∀ n, s.stdoutFd pipes ss.length i = some n →
      t₀.At n (s.stage.stdout ss.length i d₁) := by
    intro n hn
    obtain ⟨hat, hnew⟩ := hout n hn
    refine (hat₀ _ _).2 (.inr ⟨?_, hat⟩)
    rintro rfl
    obtain ⟨m, hm⟩ := h.other 0 d₀ h₀
    exact hnew m ((hat.unique (h.base _ _ h₀)).trans hm)
  obtain ⟨t₁, ht₁, hat₁⟩ := dup2OrExit_at hone hsrc hout'
  rw [stageChild_eq hf hfound, ht₀, ht₁]
  dsimp only
  rw [Fds.at_closeAll, hat₁, hat₀]
  constructor
  · rintro ⟨hn, hd | ⟨hn₁, hd | ⟨hn₀, hat⟩⟩⟩
    · exact .inr (.inl hd)
    · exact .inl hd
    · exact .inr (.inr ⟨by omega, hn, hat⟩)
  · rintro (⟨rfl, rfl⟩ | ⟨rfl, rfl⟩ | ⟨hn₂, hn, hat⟩)
    · exact ⟨hold h₀, .inr ⟨Nat.zero_ne_one, .inl ⟨rfl, rfl⟩⟩⟩
    · exact ⟨hold h₁, .inl ⟨rfl, rfl⟩⟩
    · exact ⟨hn, .inr ⟨by omega, .inr ⟨by omega, hat⟩⟩⟩

end

theorem Kernel.start_at {base : Fds ℕ} {n : ℕ} {d : Desc} :
    (Kernel.start base).fds.At n d ↔ ∃ m, base.At n m ∧ d = .other m := by
  rw [Kernel.start, Fds.At, List.getElem?_map]
  rcases hb : base[n]? with _ | _ | m
  · simp [Fds.At, hb]
  · simp [Fds.At, hb]
  · simp [Fds.At, hb, eq_comm]

/-- The shell's table when the stages are forked. -/
theorem wired_of_pipes (launcher : Launcher) (pipeOk : ℕ → Bool) (stages : List Stage)
    (base : Fds ℕ) (hpipes : ∀ i < stages.length - 1, pipeOk i) :
    ∃ pipes ss k, runPipeline launcher pipeOk stages (Kernel.start base) =
        (forkStages ss pipes 0 ss k).closeAll (shellCloses ss pipes) ∧
      Wired (Kernel.start base).fds pipes ss k.fds ∧ (∀ s ∈ ss, s.Done) ∧ k.NoStage ∧
      ss.map Setup.stage = stages ∧ pipes.length = stages.length - 1 := by
  obtain ⟨hno, hbegun⟩ := setupStages_begun 0 stages (k := Kernel.start base) nofun
  have hstages := (setUp_setupStages (Kernel.start base).fds stages).stages
  have hat := fun n d => setupStages_at (n := n) (d := d) 0 stages (Kernel.start base)
  rw [runPipeline]
  change ((setupStages 0 stages (Kernel.start base)).1.map Setup.stage = stages) at hstages
  rcases hset : setupStages 0 stages (Kernel.start base) with ⟨ss, k⟩
  simp only [hset, Nat.zero_add] at hno hbegun hstages hat
  obtain ⟨pipes, k', hmake, hlen, hprocs, hat'⟩ := makePipes_at pipeOk
    (stages.length - 1) 0 k (by simpa only [Nat.zero_add] using hpipes)
  have hw : Wired (Kernel.start base).fds pipes ss k'.fds := by
    have hall : ∀ n d, k'.fds.At n d ↔ (Kernel.start base).fds.At n d ∨ PipeEnd pipes 0 n d ∨
        ∃ (j : ℕ) (s : Setup), ss[j]? = some s ∧ s.Own j n d := by
      intro n d
      rw [hat', hat, or_assoc, or_comm (b := PipeEnd pipes 0 n d)]
    refine ⟨?_, fun n d => (hall n d).1, fun n d h => (hall n d).2 (.inl h),
      fun n d h => (hall n d).2 (.inr (.inl h)), ?_, ?_⟩
    · intro n d h
      obtain ⟨m, -, rfl⟩ := Kernel.start_at.1 h
      exact ⟨m, rfl⟩
    · exact fun j s n hs hn => (hall _ _).2 (.inr (.inr ⟨j, s, hs, .inl ⟨hn, rfl⟩⟩))
    · exact fun j s hs _ n d h => (hall _ _).2 (.inr (.inr ⟨j, s, hs, h⟩))
  have hno' : k'.NoStage := by
    rw [Kernel.NoStage, hprocs]
    exact hno
  have hcop := startCopiers_wired launcher ss [] k' hw hbegun (List.forall_mem_nil _) hno'
  dsimp only at hcop ⊢
  rw [hmake]
  rw [List.length_nil, List.nil_append, hstages,
    show ss.length = stages.length by rw [← hstages, List.length_map]] at hcop
  exact ⟨pipes, _, _, rfl, hcop.1, hcop.2.1, hcop.2.2.1, hcop.2.2.2, hlen⟩

end CShell
