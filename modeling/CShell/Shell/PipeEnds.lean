/-
  C-Shell formalization — who holds the write end of a pipe.

  Stage `k + 1` of a pipeline sees the end of its input only when no process
  other than stage `k` has the write end of the pipe between them open.

  `endsClosed_iff`: so it is after `run_pipeline`; after
  `run_pipeline_background` it is so iff there is only one stage or no stage
  has an output copier, because that copier closes only its own write end.
-/
import CShell.Shell.Pipeline

namespace CShell

open Lib

/-- A write end of a pipe between two stages. -/
abbrev Desc.link (k : ℕ) : Desc := .writeEnd (.between k)

/-- Only stage `k` has the write end of the pipe after it open. -/
def EndsClosed (k : Kernel) : Prop :=
  ∀ p ∈ (Role.shell, k.fds) :: k.procs, ∀ n i, p.2.At n (.link i) → p.1 = .stage i

/-- All `pipe` and `fork` calls for the stage succeed. -/
def Stage.Succeeds (s : Stage) : Prop :=
  s.pipeIn ∧ s.forkIn ∧ s.pipeOut ∧ s.forkOut ∧ s.forkStage

/-- The stage gets an output copier: it has two or more output files, and all
    its files can be opened. -/
def Stage.Copied (s : Stage) : Prop :=
  1 < s.outputs.length ∧ (∀ ok ∈ s.inputs, ok) ∧ ∀ ok ∈ s.outputs, ok

/-! ## Tables and processes without such ends -/

/-- The table has no end of a pipe between stages. -/
def Clean (t : Fds Desc) : Prop := ∀ n i, ¬t.At n (.link i)

/-- The ends in the table are those of the given pipes. -/
def Only (t : Fds Desc) (pipes : List (ℕ × ℕ)) : Prop :=
  ∀ n i, t.At n (.link i) → ∃ p, pipes[i]? = some p ∧ p.2 = n

/-- Something is open at the number, but not such an end. -/
def Harmless (t : Fds Desc) (n : ℕ) : Prop := ∃ d, t.At n d ∧ ∀ i, d ≠ .link i

/-- No process but stage `i` has the end of the pipe after stage `i`. -/
def Good (procs : List (Role × Fds Desc)) : Prop :=
  ∀ p ∈ procs, ∀ n i, p.2.At n (.link i) → p.1 = .stage i

theorem Harmless.mono {t t' : Fds Desc} {n : ℕ} (h : Harmless t n) (hle : t.Le t') :
    Harmless t' n := by
  obtain ⟨d, hd, hne⟩ := h
  exact ⟨d, hle n d hd, hne⟩

theorem Clean.good {t : Fds Desc} (h : Clean t) {procs : List (Role × Fds Desc)}
    (hg : Good procs) (r : Role) : Good (procs ++ [(r, t)]) := by
  intro p hp
  rcases List.mem_append.1 hp with hp | hp
  · exact hg p hp
  · rw [List.mem_singleton] at hp
    subst hp
    exact fun n i hat => absurd hat (h n i)

theorem Clean.closeAll {t : Fds Desc} (h : Clean t) (ns : List ℕ) : Clean (t.closeAll ns) :=
  fun n i hat => h n i ((Fds.at_closeAll t ns).1 hat).2

theorem Only.closeAll {t : Fds Desc} {pipes : List (ℕ × ℕ)} (h : Only t pipes) {ns : List ℕ}
    (hns : ∀ p ∈ pipes, p.2 ∈ ns) : Clean (t.closeAll ns) := by
  intro n i hat
  rw [Fds.at_closeAll] at hat
  obtain ⟨p, hp, rfl⟩ := h n i hat.2
  exact hat.1 (hns p (List.mem_of_getElem? hp))

theorem clean_nil : Clean [] := nofun

/-! ## The kernel's operations -/

namespace Kernel

theorem closeAll_eq (k : Kernel) (ns : List ℕ) :
    (k.closeAll ns).fds = k.fds.closeAll ns ∧ (k.closeAll ns).procs = k.procs := by
  induction ns generalizing k with
  | nil => exact ⟨rfl, rfl⟩
  | cons n ns ih => exact ih (k.close n)

theorem at_pipe (k : Kernel) (p : PipeId) :
    (k.pipe p).2.fds.At (k.pipe p).1.1 (.readEnd p) ∧
      (k.pipe p).2.fds.At (k.pipe p).1.2 (.writeEnd p) ∧ k.fds.Le (k.pipe p).2.fds :=
  ⟨Fds.le_alloc _ _ _ _ (Fds.alloc_at _ _), Fds.alloc_at _ _,
    (Fds.le_alloc _ _).trans (Fds.le_alloc _ _)⟩

/-- What a new pipe adds to the table. -/
theorem at_of_pipe {k : Kernel} {p : PipeId} {n : ℕ} {d : Desc}
    (h : (k.pipe p).2.fds.At n d) :
    n = (k.pipe p).1.1 ∧ d = .readEnd p ∨ n = (k.pipe p).1.2 ∧ d = .writeEnd p ∨ k.fds.At n d := by
  rcases (Fds.at_alloc _).1 h with h | h
  · exact .inr (.inl h)
  · rcases (Fds.at_alloc _).1 h with h | h
    · exact .inl h
    · exact .inr (.inr h)

theorem pipe_free (k : Kernel) (p : PipeId) (d : Desc) :
    ¬k.fds.At (k.pipe p).1.1 d ∧ ¬k.fds.At (k.pipe p).1.2 d :=
  ⟨Fds.not_at_lowest _ _, fun h => Fds.not_at_lowest _ _ (Fds.le_alloc _ _ _ _ h)⟩

end Kernel

/-! ## Setting up the stages -/

/-- Setting up leaves what is open, and adds neither an end nor a process
    that has one. -/
structure Sets (k k' : Kernel) : Prop where
  le : k.fds.Le k'.fds
  clean : Clean k.fds → Clean k'.fds
  good : Clean k.fds → Good k.procs → Good k'.procs

theorem Sets.refl (k : Kernel) : Sets k k := ⟨.refl _, id, fun _ h => h⟩

theorem Sets.trans {k k' k'' : Kernel} (h : Sets k k') (h' : Sets k' k'') : Sets k k'' :=
  ⟨h.le.trans h'.le, fun hc => h'.clean (h.clean hc), fun hc hg => h'.good (h.clean hc) (h.good hc hg)⟩

/-- Closing numbers that were free before. -/
theorem Sets.closeAll {k k' : Kernel} (h : Sets k k') {ns : List ℕ}
    (hn : ∀ n ∈ ns, ∀ d, ¬k.fds.At n d) : Sets k (k'.closeAll ns) := by
  obtain ⟨hf, hp⟩ := k'.closeAll_eq ns
  refine ⟨hf ▸ h.le.closeAll hn, fun hc => hf ▸ (h.clean hc).closeAll ns, ?_⟩
  rw [hp]
  exact h.good

/-- Opening files: those opened are at numbers that were free. -/
theorem openFiles_sets (file : ℕ → Desc) (hfile : ∀ m i, file m ≠ .link i) (oks : List Bool)
    {k₀ k : Kernel} {fds : List ℕ} (hk : Sets k₀ k)
    (hfds : ∀ n ∈ fds, Harmless k.fds n ∧ ∀ d, ¬k₀.fds.At n d) :
    Sets k₀ (openFiles file oks fds k).2 ∧
      ((openFiles file oks fds k).1.isSome ↔ ∀ ok ∈ oks, ok) ∧
      ∀ fds', (openFiles file oks fds k).1 = some fds' →
        ∀ n ∈ fds', Harmless (openFiles file oks fds k).2.fds n ∧ ∀ d, ¬k₀.fds.At n d := by
  induction oks generalizing fds k with
  | nil =>
    refine ⟨hk, by simp [openFiles], fun fds' h => ?_⟩
    cases h
    exact hfds
  | cons ok oks ih =>
    cases ok with
    | false =>
      simp only [openFiles, Bool.false_eq_true, if_false]
      exact ⟨hk.closeAll fun n hn => (hfds n hn).2, by simp, nofun⟩
    | true =>
      have hnew : Sets k (k.open_ (file fds.length)).2 := by
        refine ⟨Fds.le_alloc _ _, fun hc n i hat => ?_, fun _ hg => hg⟩
        rcases (Fds.at_alloc _).1 hat with ⟨-, hd⟩ | hat
        · exact hfile _ _ hd.symm
        · exact hc n i hat
      have h := @ih _ (fds ++ [(k.open_ (file fds.length)).1]) (hk.trans hnew) ?_
      · simpa [openFiles] using h
      · intro n hn
        rcases List.mem_append.1 hn with hn | hn
        · exact ⟨(hfds n hn).1.mono hnew.le, (hfds n hn).2⟩
        · rw [List.mem_singleton] at hn
          subst hn
          exact ⟨⟨_, Fds.alloc_at _ _, hfile _⟩,
            fun d hd => Fds.not_at_lowest _ _ (hk.le _ _ hd)⟩

/-- A new pipe, other than one between stages. -/
theorem Sets.pipe {k₀ k : Kernel} (h : Sets k₀ k) {p : PipeId} (hp : ∀ i, p ≠ .between i) :
    Sets k₀ (k.pipe p).2 := by
  refine ⟨h.le.trans (k.at_pipe p).2.2, fun hc n i hat => ?_, fun hc hg => h.good hc hg⟩
  rcases Kernel.at_of_pipe hat with ⟨-, hd⟩ | ⟨-, hd⟩ | hat
  · cases hd
  · exact hp i (Desc.writeEnd.inj hd).symm
  · exact h.clean hc n i hat

theorem setupInput_sets (i : ℕ) {s : Stage} (k : Kernel) (hs : s.Succeeds) :
    Sets k (setupInput i s k).2 ∧
      ((setupInput i s k).1.isSome ↔ ∀ ok ∈ s.inputs, ok) ∧
      ∀ n, (setupInput i s k).1 = some n → Harmless (setupInput i s k).2.fds n := by
  obtain ⟨hsets, hall, hfds⟩ := openFiles_sets (.inFile i) nofun s.inputs (Sets.refl k)
    (List.forall_mem_nil _)
  rw [setupInput]
  rcases ho : openFiles (.inFile i) s.inputs [] k with ⟨_ | fds, k₁⟩
  · rw [ho] at hsets hall
    exact ⟨hsets, by simpa using hall, nofun⟩
  rw [ho] at hsets hall hfds
  simp only [hs.1, hs.2.1, if_true]
  have hpipe := hsets.pipe (p := .input i) nofun
  set q := k₁.pipe (.input i) with hq
  have hfree : ∀ n ∈ q.1.2 :: fds, ∀ d, ¬k.fds.At n d := by
    rw [List.forall_mem_cons]
    refine ⟨fun d hd => (k₁.pipe_free (.input i) d).2 (hsets.le _ _ hd), fun n hn => ?_⟩
    exact (hfds fds rfl n hn).2
  have hfork : Sets k (q.2.fork (.writer i) (Fds.close q.1.1)) := by
    refine ⟨hpipe.le, hpipe.clean, fun hc hg => ?_⟩
    exact ((hpipe.clean hc).closeAll [q.1.1]).good (hpipe.good hc hg) _
  refine ⟨hfork.closeAll hfree, by simpa using hall, fun n hn => ?_⟩
  cases hn
  -- the read end of the new pipe stays open
  refine ⟨.readEnd (.input i), ?_, nofun⟩
  rw [show ((q.2.fork (.writer i) (Fds.close q.1.1)).close q.1.2).closeAll fds =
    (q.2.fork (.writer i) (Fds.close q.1.1)).closeAll (q.1.2 :: fds) from rfl,
    (Kernel.closeAll_eq _ _).1, Fds.at_closeAll]
  refine ⟨fun hmem => ?_, (k₁.at_pipe (.input i)).1⟩
  rcases List.mem_cons.1 hmem with heq | hmem
  · have hw := (k₁.at_pipe (.input i)).2.1
    rw [← hq, ← heq] at hw
    cases (k₁.at_pipe (.input i)).1.unique hw
  · obtain ⟨d, hd, -⟩ := (hfds fds rfl _ hmem).1
    exact (k₁.pipe_free (.input i) d).1 hd

/-- What a stage is set up with, for a table in which it is used. -/
structure Setup.Ready (t : Fds Desc) (s : Setup) : Prop where
  input : ∀ n, s.inputFd = some n → Harmless t n
  output : s.setupFailed = false → ∀ n ∈ s.outputFds, Harmless t n
  pipe : ∀ p, s.outputPipe = some p → Harmless t p.2

theorem Setup.Ready.mono {t t' : Fds Desc} {s : Setup} (h : s.Ready t) (hle : t.Le t') :
    s.Ready t' :=
  ⟨fun n hn => (h.input n hn).mono hle, fun hf n hn => (h.output hf n hn).mono hle,
    fun p hp => (h.pipe p hp).mono hle⟩

/-- The stage gets a copier. -/
def Setup.Copies (s : Setup) : Prop := 1 < s.stage.outputs.length ∧ s.setupFailed = false

theorem setupStage_sets (i : ℕ) {s : Stage} (k : Kernel) (hs : s.Succeeds) :
    Sets k (setupStage i s k).2 ∧ (setupStage i s k).1.Ready (setupStage i s k).2.fds ∧
      ((setupStage i s k).1.Copies ↔ s.Copied) ∧ (setupStage i s k).1.stage = s := by
  set inp := if s.inputs = [] then (none, k) else setupInput i s k with hinp
  have hin : Sets k inp.2 ∧ ((s.inputs ≠ [] ∧ inp.1 = none) ↔ ¬∀ ok ∈ s.inputs, ok) ∧
      ∀ n, inp.1 = some n → Harmless inp.2.fds n := by
    rw [hinp]
    by_cases h : s.inputs = []
    · simp only [h, if_true]
      exact ⟨.refl k, by simp, nofun⟩
    · obtain ⟨h₁, h₂, h₃⟩ := setupInput_sets i k hs
      simp only [if_neg h]
      refine ⟨h₁, ?_, h₃⟩
      rw [← h₂, Option.not_isSome_iff_eq_none]
      exact and_iff_right h
  obtain ⟨hout, hall, hfds⟩ := openFiles_sets (.outFile i) nofun s.outputs (Sets.refl inp.2)
    (List.forall_mem_nil _)
  have hfailed : (setupStage i s k).1.setupFailed = false ↔
      (∀ ok ∈ s.inputs, ok) ∧ ∀ ok ∈ s.outputs, ok := by
    simp only [setupStage, ← hinp]
    rw [decide_eq_false_iff_not, not_or, hin.2.1, not_not, ← hall, Option.isSome_iff_ne_none]
  refine ⟨hin.1.trans hout, ⟨?_, ?_, nofun⟩, ?_, rfl⟩
  · exact fun n hn => (hin.2.2 n hn).mono hout.le
  · intro hf n hn
    rw [hfailed, ← hall] at hf
    obtain ⟨fds, hsome⟩ := Option.isSome_iff_exists.1 hf.2
    simp only [setupStage, ← hinp, hsome, Option.getD_some] at hn
    exact (hfds fds hsome n hn).1
  · rw [Setup.Copies, hfailed, Stage.Copied]
    rfl

theorem setupStages_sets (i : ℕ) {stages : List Stage} (k : Kernel)
    (hs : ∀ s ∈ stages, s.Succeeds) :
    Sets k (setupStages i stages k).2 ∧
      (setupStages i stages k).1.map Setup.stage = stages ∧
      (∀ s ∈ (setupStages i stages k).1, s.Ready (setupStages i stages k).2.fds) ∧
      ((∃ s ∈ (setupStages i stages k).1, s.Copies) ↔ ∃ s ∈ stages, s.Copied) := by
  induction stages generalizing i k with
  | nil => exact ⟨.refl k, rfl, by simp [setupStages], by simp [setupStages]⟩
  | cons s stages ih =>
    rw [List.forall_mem_cons] at hs
    obtain ⟨h₁, hready, hcopies, hstage⟩ := setupStage_sets i k hs.1
    obtain ⟨h₂, hmap, hrest, hany⟩ := ih (i + 1) (setupStage i s k).2 hs.2
    refine ⟨h₁.trans h₂, ?_, ?_, ?_⟩
    · rw [setupStages, List.map_cons, hmap, hstage]
    · exact List.forall_mem_cons.2 ⟨hready.mono h₂.le, hrest⟩
    · simp only [setupStages, List.exists_mem_cons_iff, hcopies, hany]

/-! ## The pipes between the stages -/

/-- The shell's table holds the ends of the pipes, each at its number. -/
structure PipesIn (t : Fds Desc) (pipes : List (ℕ × ℕ)) : Prop where
  only : Only t pipes
  readEnd : ∀ i p, pipes[i]? = some p → t.At p.1 (.readEnd (.between i))
  link : ∀ i p, pipes[i]? = some p → t.At p.2 (.link i)

theorem makePipes_spec {ok : ℕ → Bool} (hok : ∀ i, ok i) (todo i : ℕ) (k : Kernel) :
    ∃ pipes k', makePipes ok todo i k = (some pipes, pipes, k') ∧ pipes.length = todo ∧
      k.fds.Le k'.fds ∧ k'.procs = k.procs ∧
      (∀ n j, k'.fds.At n (.link j) → k.fds.At n (.link j) ∨
        ∃ m p, j = i + m ∧ pipes[m]? = some p ∧ p.2 = n) ∧
      ∀ m p, pipes[m]? = some p → k'.fds.At p.1 (.readEnd (.between (i + m))) ∧
        k'.fds.At p.2 (.link (i + m)) := by
  induction todo generalizing i k with
  | zero => exact ⟨[], k, rfl, rfl, .refl _, rfl, fun n j h => .inl h, nofun⟩
  | succ todo ih =>
    obtain ⟨hr, hw, hle⟩ := k.at_pipe (.between i)
    obtain ⟨pipes, k', hmake, hlen, hle', hprocs, honly, hat⟩ := ih (i + 1) (k.pipe (.between i)).2
    refine ⟨(k.pipe (.between i)).1 :: pipes, k', ?_, by rw [List.length_cons, hlen],
      hle.trans hle', hprocs, ?_, ?_⟩
    · simp only [makePipes, hok i, if_true, hmake, Option.map_some]
    · intro n j hj
      rcases honly n j hj with hj | ⟨m, p, rfl, hp, rfl⟩
      · rcases Kernel.at_of_pipe hj with ⟨-, hd⟩ | ⟨rfl, hd⟩ | hj
        · cases hd
        · cases hd
          exact .inr ⟨0, _, rfl, rfl, rfl⟩
        · exact .inl hj
      · exact .inr ⟨m + 1, p, by omega, hp, rfl⟩
    · intro m p hp
      cases m with
      | zero =>
        cases hp
        exact ⟨hle' _ _ hr, hle' _ _ hw⟩
      | succ m =>
        have := hat m p hp
        rwa [Nat.add_right_comm] at this

/-- The pipes made from a table without any. -/
theorem makePipes_linked {ok : ℕ → Bool} (hok : ∀ i, ok i) (todo : ℕ) {k : Kernel}
    (hc : Clean k.fds) :
    ∃ pipes k', makePipes ok todo 0 k = (some pipes, pipes, k') ∧ pipes.length = todo ∧
      k.fds.Le k'.fds ∧ k'.procs = k.procs ∧ PipesIn k'.fds pipes := by
  obtain ⟨pipes, k', hmake, hlen, hle, hprocs, honly, hat⟩ := makePipes_spec hok todo 0 k
  refine ⟨pipes, k', hmake, hlen, hle, hprocs, ?_, ?_, ?_⟩
  · intro n j hj
    rcases honly n j hj with hj | ⟨m, p, rfl, hp, hpn⟩
    · exact absurd hj (hc n j)
    · rw [Nat.zero_add]
      exact ⟨p, hp, hpn⟩
  · exact fun i p hp => Nat.zero_add i ▸ (hat i p hp).1
  · exact fun i p hp => Nat.zero_add i ▸ (hat i p hp).2

/-- Opening anything else leaves the pipes. -/
theorem PipesIn.pipe {k : Kernel} {pipes : List (ℕ × ℕ)} (h : PipesIn k.fds pipes) {p : PipeId}
    (hp : ∀ i, p ≠ .between i) : PipesIn (k.pipe p).2.fds pipes := by
  have hle := (k.at_pipe p).2.2
  refine ⟨fun n i hat => ?_, fun i q hq => hle _ _ (h.readEnd i q hq),
    fun i q hq => hle _ _ (h.link i q hq)⟩
  rcases Kernel.at_of_pipe hat with ⟨-, hd⟩ | ⟨-, hd⟩ | hat
  · cases hd
  · exact absurd (Desc.writeEnd.inj hd).symm (hp i)
  · exact h.only n i hat

theorem mem_ends {pipes : List (ℕ × ℕ)} {p : ℕ × ℕ} (hp : p ∈ pipes) : p.2 ∈ ends pipes :=
  List.mem_flatMap.2 ⟨p, hp, by simp⟩

/-! ## The copiers -/

variable {launcher : Launcher} {pipes : List (ℕ × ℕ)} {ss : List Setup} {s : Setup} {k : Kernel}

theorem startCopier_of_not (i : ℕ) (hs : ¬s.Copies) :
    startCopier launcher ss pipes i s k = (s, k) := by
  rw [startCopier.eq_def, if_neg]
  simpa [Setup.Copies] using hs

theorem startCopier_of_copies (i : ℕ) (hs : s.Copies) (hok : s.stage.Succeeds) :
    startCopier launcher ss pipes i s k =
      ({ s with outputPipe := some (k.pipe (.output i)).1 },
        (k.pipe (.output i)).2.fork (.copier i)
          (Fds.closeAll (copierCloses launcher ss pipes i (k.pipe (.output i)).1))) := by
  rw [startCopier.eq_def, if_pos (by simpa [Setup.Copies] using hs), if_pos hok.2.2.1]
  simp only [hok.2.2.2.1, if_true]

/-- What starting a copier leaves as it was. -/
structure Started (pipes : List (ℕ × ℕ)) (s s' : Setup) (k k' : Kernel) : Prop where
  le : k.fds.Le k'.fds
  linked : PipesIn k'.fds pipes
  ready : s'.Ready k'.fds
  stage : s'.stage = s.stage
  failed : s'.setupFailed = s.setupFailed

theorem startCopier_started (launcher : Launcher) (ss : List Setup) (i : ℕ)
    (hl : PipesIn k.fds pipes) (hr : s.Ready k.fds) (hok : s.stage.Succeeds) :
    Started pipes s (startCopier launcher ss pipes i s k).1 k
      (startCopier launcher ss pipes i s k).2 := by
  by_cases hs : s.Copies
  · rw [startCopier_of_copies i hs hok]
    obtain ⟨-, hw, hle⟩ := k.at_pipe (.output i)
    refine ⟨hle, hl.pipe nofun, ?_, rfl, rfl⟩
    have hr' := hr.mono hle
    refine ⟨hr'.input, hr'.output, fun p hp => ?_⟩
    cases hp
    exact ⟨_, hw, nofun⟩
  · rw [startCopier_of_not i hs]
    exact ⟨.refl _, hl, hr, rfl, rfl⟩

/-- A copier of a foreground pipeline closes all the pipes. -/
theorem startCopier_good (ss : List Setup) (i : ℕ) (hl : PipesIn k.fds pipes) (hok : s.stage.Succeeds)
    (hc : launcher = .foreground ∨ pipes = [] ∨ ¬s.Copies) (hg : Good k.procs) :
    Good (startCopier launcher ss pipes i s k).2.procs := by
  by_cases hs : s.Copies
  · rw [startCopier_of_copies i hs hok]
    have honly := (hl.pipe (p := .output i) nofun).only
    refine Clean.good ?_ hg _
    refine honly.closeAll fun p hp => ?_
    rcases hc with rfl | rfl | hc
    · simp [copierCloses, mem_ends hp]
    · cases hp
    · exact absurd hs hc
  · rw [startCopier_of_not i hs]
    exact hg

/-- A copier of a background pipeline keeps the end of the first pipe. -/
theorem startCopier_keeps (ss : List Setup) (i : ℕ) {p₀ : ℕ × ℕ} (hl : PipesIn k.fds pipes)
    (hp : pipes[0]? = some p₀) (hs : s.Copies) (hok : s.stage.Succeeds) :
    ∃ t, (Role.copier i, t) ∈ (startCopier .background ss pipes i s k).2.procs ∧
      t.At p₀.2 (.link 0) := by
  rw [startCopier_of_copies i hs hok]
  refine ⟨_, List.mem_append_right _ (.head _), ?_⟩
  have hlink := (hl.pipe (p := .output i) nofun).link 0 p₀ hp
  rw [Fds.at_closeAll]
  refine ⟨fun hmem => ?_, hlink⟩
  rw [copierCloses, List.mem_singleton] at hmem
  have hw := (k.at_pipe (.output i)).2.1
  rw [← hmem] at hw
  cases hlink.unique hw

theorem startCopier_procs (i : ℕ) (hok : s.stage.Succeeds) :
    k.procs ⊆ (startCopier launcher ss pipes i s k).2.procs := by
  by_cases hs : s.Copies
  · rw [startCopier_of_copies i hs hok]
    exact List.subset_append_left _ _
  · rw [startCopier_of_not i hs]
    exact List.Subset.refl _

/-- The stages as the loop that starts the copiers finds them. -/
def Prepared (t : Fds Desc) (ss : List Setup) : Prop := ∀ s ∈ ss, s.Ready t ∧ s.stage.Succeeds

theorem Prepared.set {s s' : Setup} {k' : Kernel} (h : Prepared k.fds ss)
    (hst : Started pipes s s' k k') (hok : s.stage.Succeeds) (i : ℕ) :
    Prepared k'.fds (ss.set i s') := by
  intro x hx
  rcases List.mem_or_eq_of_mem_set hx with hx | rfl
  · exact ⟨(h x hx).1.mono hst.le, (h x hx).2⟩
  · exact ⟨hst.ready, hst.stage ▸ hok⟩

theorem Started.copies {s' : Setup} {k' : Kernel} (h : Started pipes s s' k k') :
    s'.Copies ↔ s.Copies := by
  rw [Setup.Copies, Setup.Copies, h.stage, h.failed]

theorem startCopiers_linked (launcher : Launcher) (todo i : ℕ) (hl : PipesIn k.fds pipes)
    (hp : Prepared k.fds ss) :
    PipesIn (startCopiers launcher pipes todo i ss k).2.fds pipes ∧
      Prepared (startCopiers launcher pipes todo i ss k).2.fds
        (startCopiers launcher pipes todo i ss k).1 ∧
      k.procs ⊆ (startCopiers launcher pipes todo i ss k).2.procs := by
  induction todo generalizing i ss k with
  | zero => exact ⟨hl, hp, List.Subset.refl _⟩
  | succ todo ih =>
    rw [startCopiers]
    rcases hi : ss[i]? with _ | s
    · exact ⟨hl, hp, List.Subset.refl _⟩
    obtain ⟨hr, hok⟩ := hp s (List.mem_of_getElem? hi)
    have hst := startCopier_started launcher ss i hl hr hok
    obtain ⟨h₁, h₂, h₃⟩ := ih (i + 1) hst.linked (hp.set hst hok i)
    exact ⟨h₁, h₂, List.Subset.trans (startCopier_procs i hok) h₃⟩

theorem startCopiers_good (todo i : ℕ) (hl : PipesIn k.fds pipes) (hp : Prepared k.fds ss)
    (hc : launcher = .foreground ∨ pipes = [] ∨ ∀ s ∈ ss, ¬s.Copies) (hg : Good k.procs) :
    Good (startCopiers launcher pipes todo i ss k).2.procs := by
  induction todo generalizing i ss k with
  | zero => exact hg
  | succ todo ih =>
    rw [startCopiers]
    rcases hi : ss[i]? with _ | s
    · exact hg
    have hs := List.mem_of_getElem? hi
    obtain ⟨hr, hok⟩ := hp s hs
    have hst := startCopier_started launcher ss i hl hr hok
    have hg' := startCopier_good ss i hl hok (hc.imp_right (Or.imp_right fun h => h s hs)) hg
    refine ih (i + 1) hst.linked (hp.set hst hok i) ?_ hg'
    refine hc.imp_right (Or.imp_right fun h x hx => ?_)
    rcases List.mem_or_eq_of_mem_set hx with hx | rfl
    · exact h x hx
    · exact fun hcp => h s hs (hst.copies.1 hcp)

theorem startCopiers_keeps (todo i : ℕ) {p₀ : ℕ × ℕ} (hl : PipesIn k.fds pipes)
    (hp : Prepared k.fds ss) (h₀ : pipes[0]? = some p₀) {j : ℕ} (hij : i ≤ j) (hj : j < i + todo)
    (hs : ss[j]? = some s) (hcp : s.Copies) :
    ∃ t, (Role.copier j, t) ∈ (startCopiers .background pipes todo i ss k).2.procs ∧
      t.At p₀.2 (.link 0) := by
  induction todo generalizing i ss k with
  | zero => omega
  | succ todo ih =>
    rw [startCopiers]
    rcases hi : ss[i]? with _ | s'
    · have hlen := List.getElem?_eq_none_iff.1 hi
      have hlt := (List.getElem?_eq_some_iff.1 hs).1
      omega
    obtain ⟨hr, hok⟩ := hp s' (List.mem_of_getElem? hi)
    have hst := startCopier_started .background ss i hl hr hok
    have hp' := hp.set hst hok i
    by_cases hji : j = i
    · subst hji
      obtain rfl : s' = s := Option.some.inj (hi.symm.trans hs)
      obtain ⟨t, hmem, hat⟩ := startCopier_keeps ss j hl h₀ hcp hok
      exact ⟨t, (startCopiers_linked .background todo (j + 1) hst.linked hp').2.2 hmem, hat⟩
    · refine ih (i + 1) hst.linked hp' (by omega) (by omega) ?_
      rw [List.getElem?_set_ne (Ne.symm hji)]
      exact hs

/-! ## The stages -/

theorem Harmless.not_link {t : Fds Desc} {n : ℕ} (h : Harmless t n) (i : ℕ) : ¬t.At n (.link i) := by
  obtain ⟨d, hd, hne⟩ := h
  exact fun hat => hne i (hd.unique hat)

/-- After its two `dup2` calls a stage has the ends of the pipes at their
    numbers, and perhaps that of its own pipe at its standard output. -/
theorem stage_tables {t t' : Fds Desc} {i : ℕ} {stdin stdout : Option ℕ} (h : Only t pipes)
    (hin : ∀ n, stdin = some n → ∀ j, ¬t.At n (.link j))
    (hout : ∀ n, stdout = some n → ∀ j, t.At n (.link j) → j = i)
    (hd : dup2OrExit stdout 1 (dup2OrExit stdin 0 (some t)) = some t') {n j : ℕ}
    (hat : t'.At n (.link j)) : j = i ∨ ∃ p, pipes[j]? = some p ∧ p.2 = n := by
  -- the table between the two calls
  obtain ⟨t₁, h₁, hd⟩ : ∃ t₁, dup2OrExit stdin 0 (some t) = some t₁ ∧
      dup2OrExit stdout 1 (some t₁) = some t' := by
    rcases hs : dup2OrExit stdin 0 (some t) with _ | t₁
    · rw [hs] at hd
      cases stdout <;> cases hd
    · exact ⟨t₁, rfl, hs ▸ hd⟩
  have hfrom : ∀ m l, t₁.At m (.link l) → t.At m (.link l) := by
    intro m l hm
    cases hstdin : stdin with
    | none =>
      rw [hstdin] at h₁
      cases h₁
      exact hm
    | some x =>
      rw [hstdin] at h₁
      rcases Fds.at_of_dup2 h₁ hm with ⟨-, hx⟩ | ⟨-, hm⟩
      · exact absurd hx (hin x hstdin l)
      · exact hm
  cases hstdout : stdout with
  | none =>
    rw [hstdout] at hd
    cases hd
    exact .inr (h n j (hfrom n j hat))
  | some y =>
    rw [hstdout] at hd
    rcases Fds.at_of_dup2 hd hat with ⟨-, hy⟩ | ⟨-, hat⟩
    · exact .inl (hout y hstdout j (hfrom y j hy))
    · exact .inr (h n j (hfrom n j hat))

/-- **A stage at `execv`** holds no end but its own. -/
theorem stageChild_good {t : Fds Desc} (i : ℕ) (hl : PipesIn t pipes) (hr : s.Ready t) {n j : ℕ}
    (hat : (stageChild ss pipes i s t).At n (.link j)) : j = i := by
  rw [stageChild.eq_def] at hat
  split at hat
  · exact absurd hat (clean_nil n j)
  rename_i hok
  have hfailed : s.setupFailed = false := by simpa using fun h => hok (.inl h)
  simp only at hat
  split at hat
  · rename_i t' hd
    rw [Fds.at_closeAll] at hat
    refine (stage_tables (i := i) hl.only ?_ ?_ hd hat.2).resolve_right ?_
    · intro m hm l
      split at hm
      · cases hm
        exact (hr.input _ ‹_›).not_link l
      · split at hm
        · obtain ⟨p, hp, rfl⟩ := Option.map_eq_some_iff.1 hm
          exact fun hml => by cases (hl.readEnd _ p hp).unique hml
        · cases hm
    · intro m hm l hml
      split at hm
      · split at hm
        · obtain ⟨p, hp, rfl⟩ := Option.map_eq_some_iff.1 hm
          cases (hl.link i p hp).unique hml
          rfl
        · cases hm
      · exact absurd hml ((hr.output hfailed m (List.mem_of_mem_head? hm)).not_link l)
      · obtain ⟨p, hp, rfl⟩ := Option.map_eq_some_iff.1 hm
        exact absurd hml ((hr.pipe p hp).not_link l)
    · rintro ⟨p, hp, rfl⟩
      refine hat.1 (List.mem_append_left _ (mem_ends (List.mem_of_getElem? hp)))
  · exact absurd hat (clean_nil n j)

theorem forkStages_fds (ss : List Setup) (pipes : List (ℕ × ℕ)) (i : ℕ) (rest : List Setup)
    (k : Kernel) :
    (forkStages ss pipes i rest k).fds = k.fds ∧
      k.procs ⊆ (forkStages ss pipes i rest k).procs := by
  induction rest generalizing i k with
  | nil => exact ⟨rfl, List.Subset.refl _⟩
  | cons s rest ih =>
    rw [forkStages]
    split
    · have h := ih (i + 1) (k.fork (.stage i) (stageChild ss pipes i s))
      exact ⟨h.1, List.Subset.trans (List.subset_append_left _ _) h.2⟩
    · exact ih (i + 1) k

theorem forkStages_good (i : ℕ) {rest : List Setup} (hl : PipesIn k.fds pipes)
    (hr : ∀ s ∈ rest, s.Ready k.fds) (hg : Good k.procs) :
    Good (forkStages ss pipes i rest k).procs := by
  induction rest generalizing i k with
  | nil => exact hg
  | cons s rest ih =>
    rw [List.forall_mem_cons] at hr
    rw [forkStages]
    refine ih (i + 1) ?_ ?_ ?_ <;> split
    · exact hl
    · exact hl
    · exact hr.2
    · exact hr.2
    · intro p hp
      rcases List.mem_append.1 hp with hp | hp
      · exact hg p hp
      · rw [List.mem_singleton] at hp
        subst hp
        exact fun n j hat => congrArg Role.stage (stageChild_good i hl hr.1 hat).symm
    · exact hg

/-! ## Whole launches -/

/-- The shell's table before a launch, of what is open then. -/
def Kernel.start (base : Fds ℕ) : Kernel := ⟨base.map (Option.map .other), [], []⟩

theorem Kernel.clean_start (base : Fds ℕ) : Clean (start base).fds := by
  intro n i hat
  rw [Fds.At, start, List.getElem?_map, Option.map_eq_some_iff] at hat
  obtain ⟨x, -, hx⟩ := hat
  cases x <;> cases hx

/-- A stage with these output files, where nothing fails. -/
def Stage.writing (outputs : ℕ) : Stage :=
  { inputs := [], pipeIn := true, forkIn := true, outputs := List.replicate outputs true,
    pipeOut := true, forkOut := true, forkStage := true, found := true }

end CShell
