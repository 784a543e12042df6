/-
  C-Shell formalization — the descriptors of a pipeline (`command.c`).

  `run_pipeline` and `run_pipeline_background` open files and pipes and fork
  input writers, output copiers and the stages.  Each process gets a copy of
  the shell's descriptor table when it is forked and then changes only its
  own; the model keeps for each process the table it has in the end: a stage
  at `execv`, a copier at its copy loop, an input writer while it copies.

  What the calls return is given: for each file whether it can be opened, for
  each `pipe` and `fork` whether it succeeds.  The tables do not depend on
  which process runs first.
-/
import CShell.Lib.Descriptors

namespace CShell

open Lib

/-- The pipes of a pipeline. -/
inductive PipeId where
  /-- from the input writer of a stage -/
  | input (stage : ℕ)
  /-- from stage `k` to stage `k + 1` -/
  | between (k : ℕ)
  /-- to the output copier of a stage -/
  | output (stage : ℕ)
  deriving DecidableEq, Repr

/-- What a descriptor refers to. -/
inductive Desc where
  /-- what the shell had open before -/
  | other (n : ℕ)
  | inFile (stage file : ℕ)
  | outFile (stage file : ℕ)
  | readEnd (p : PipeId)
  | writeEnd (p : PipeId)
  deriving DecidableEq, Repr

/-- What a process is for. -/
inductive Role where
  | shell
  | writer (stage : ℕ)
  | copier (stage : ℕ)
  | stage (i : ℕ)
  deriving DecidableEq, Repr

/-- A stage, as far as descriptors are concerned: what the calls made for it
    return, the files in the order of the command line. -/
structure Stage where
  inputs : List Bool
  pipeIn : Bool
  forkIn : Bool
  outputs : List Bool
  pipeOut : Bool
  forkOut : Bool
  forkStage : Bool
  /-- `resolve_command` succeeds -/
  found : Bool
  deriving DecidableEq, Repr

/-- The shell's table, the numbers it closed that were not open, and the
    processes it has forked. -/
structure Kernel where
  fds : Fds Desc
  ebadf : List ℕ
  procs : List (Role × Fds Desc)
  deriving DecidableEq, Repr

namespace Kernel

/-- `open`, or one end of a `pipe`: the lowest free number. -/
def open_ (d : Desc) (k : Kernel) : ℕ × Kernel :=
  ((k.fds.alloc d).1, { k with fds := (k.fds.alloc d).2 })

/-- `close`; a number that is not open is noted. -/
def close (n : ℕ) (k : Kernel) : Kernel :=
  { k with
    fds := k.fds.close n
    ebadf := if (k.fds[n]?.join).isSome then k.ebadf else k.ebadf ++ [n] }

/-- `close` of several numbers, one after the other. -/
def closeAll (ns : List ℕ) (k : Kernel) : Kernel := ns.foldl (fun k n => k.close n) k

/-- `pipe`: the read end, then the write end. -/
def pipe (p : PipeId) (k : Kernel) : (ℕ × ℕ) × Kernel :=
  let r := k.open_ (.readEnd p)
  let w := r.2.open_ (.writeEnd p)
  ((r.1, w.1), w.2)

/-- A child whose own code makes `child t` of its table `t`. -/
def fork (role : Role) (child : Fds Desc → Fds Desc) (k : Kernel) : Kernel :=
  { k with procs := k.procs ++ [(role, child k.fds)] }

end Kernel

/-! ## Setting up a stage -/

/-- Open files in order; if one cannot be opened, close those before it. -/
def openFiles (file : ℕ → Desc) : List Bool → List ℕ → Kernel → Option (List ℕ) × Kernel
  | [], fds, k => (some fds, k)
  | ok :: oks, fds, k =>
    if ok then
      let r := k.open_ (file fds.length)
      openFiles file oks (fds ++ [r.1]) r.2
    else (none, k.closeAll fds)

/-- The input of a stage: its files are opened, and an input writer is forked. -/
def setupInput (i : ℕ) (s : Stage) (k : Kernel) : Option ℕ × Kernel :=
  match openFiles (.inFile i) s.inputs [] k with
  | (none, k) => (none, k)
  | (some fds, k) =>
    if s.pipeIn then
      let p := k.pipe (.input i)
      if s.forkIn then
        let k := p.2.fork (.writer i) (Fds.close p.1.1)
        (some p.1.1, (k.close p.1.2).closeAll fds)
      else (none, ((p.2.close p.1.1).close p.1.2).closeAll fds)
    else (none, k.closeAll fds)

/-- The fields of `struct pipeline_stage` that `run_pipeline` sets; `none` is
    `-1`. -/
structure Setup where
  stage : Stage
  inputFd : Option ℕ
  outputFds : List ℕ
  outputPipe : Option (ℕ × ℕ)
  setupFailed : Bool
  deriving DecidableEq, Repr

/-- The input and the output files of a stage. -/
def setupStage (i : ℕ) (s : Stage) (k : Kernel) : Setup × Kernel :=
  let inp := if s.inputs = [] then (none, k) else setupInput i s k
  let out := openFiles (.outFile i) s.outputs [] inp.2
  ({ stage := s
     inputFd := inp.1
     outputFds := out.1.getD []
     outputPipe := none
     setupFailed := (s.inputs ≠ [] ∧ inp.1 = none) ∨ out.1 = none }, out.2)

/-- The loop over the stages that opens their files. -/
def setupStages : ℕ → List Stage → Kernel → List Setup × Kernel
  | _, [], k => ([], k)
  | i, s :: ss, k =>
    let r := setupStage i s k
    let rs := setupStages (i + 1) ss r.2
    (r.1 :: rs.1, rs.2)

/-! ## Pipes and copiers -/

/-- The pipes between the stages from `i` on; stops where `pipe` fails. -/
def makePipes (ok : ℕ → Bool) : (todo i : ℕ) → Kernel → Option (List (ℕ × ℕ)) × List (ℕ × ℕ) × Kernel
  | 0, _, k => (some [], [], k)
  | todo + 1, i, k =>
    if ok i then
      let p := k.pipe (.between i)
      let r := makePipes ok todo (i + 1) p.2
      (r.1.map (p.1 :: ·), p.1 :: r.2.1, r.2.2)
    else (none, [], k)

/-- `run_pipeline` or `run_pipeline_background`. -/
inductive Launcher where
  | foreground | background
  deriving DecidableEq, Repr

/-- The numbers of both ends of all pipes. -/
def ends (pipes : List (ℕ × ℕ)) : List ℕ := pipes.flatMap fun p => [p.1, p.2]

/-- The input end of a stage and, unless it has failed, its output files. -/
def Setup.fds (s : Setup) : List ℕ :=
  s.inputFd.toList ++ if s.stage.outputs ≠ [] ∧ !s.setupFailed then s.outputFds else []

/-- What the copier of stage `i` closes before it copies: in the foreground
    everything it does not need, in the background its own write end. -/
def copierCloses (mode : Launcher) (ss : List Setup) (pipes : List (ℕ × ℕ)) (i : ℕ) (own : ℕ × ℕ) :
    List ℕ :=
  match mode with
  | .foreground => own.2 :: ends pipes ++
      (ss.zipIdx.flatMap fun s =>
        if s.2 ≠ i then s.1.fds else s.1.inputFd.toList)
  | .background => [own.2]

/-- The copier of stage `i`, where it is needed. -/
def startCopier (mode : Launcher) (ss : List Setup) (pipes : List (ℕ × ℕ)) (i : ℕ) (s : Setup)
    (k : Kernel) : Setup × Kernel :=
  if 1 < s.stage.outputs.length ∧ !s.setupFailed then
    if s.stage.pipeOut then
      let p := k.pipe (.output i)
      if s.stage.forkOut then
        ({ s with outputPipe := some p.1 },
          p.2.fork (.copier i) (Fds.closeAll (copierCloses mode ss pipes i p.1)))
      else
        match mode with
        | .foreground =>
          ({ s with setupFailed := true }, p.2.closeAll (p.1.1 :: p.1.2 :: s.outputFds))
        -- `output_pipe` keeps the numbers of the closed ends
        | .background =>
          ({ s with setupFailed := true, outputPipe := some p.1 }, p.2.closeAll [p.1.1, p.1.2])
    else
      match mode with
      | .foreground => ({ s with setupFailed := true }, k.closeAll s.outputFds)
      | .background => ({ s with setupFailed := true }, k)
  else (s, k)

/-- The loop over the stages that starts their output copiers. -/
def startCopiers (mode : Launcher) (pipes : List (ℕ × ℕ)) :
    (todo i : ℕ) → List Setup → Kernel → List Setup × Kernel
  | 0, _, ss, k => (ss, k)
  | todo + 1, i, ss, k =>
    match ss[i]? with
    | some s =>
      let r := startCopier mode ss pipes i s k
      startCopiers mode pipes todo (i + 1) (ss.set i r.1) r.2
    | none => (ss, k)

/-! ## The stages -/

/-- `dup2` in a child, which exits where it fails. -/
def dup2OrExit (src : Option ℕ) (dst : ℕ) (t : Option (Fds Desc)) : Option (Fds Desc) :=
  match src with
  | some n => t.bind (Fds.dup2 n dst)
  | none => t

/-- What a stage closes before `execv`. -/
def stageCloses (ss : List Setup) (pipes : List (ℕ × ℕ)) : List ℕ :=
  ends pipes ++ ss.flatMap fun s =>
    s.fds ++ if 1 < s.stage.outputs.length ∧ !s.setupFailed then
      s.outputPipe.toList.flatMap fun p => [p.1, p.2] else []

/-- The table of stage `i` at `execv`; a stage that exits has nothing open. -/
def stageChild (ss : List Setup) (pipes : List (ℕ × ℕ)) (i : ℕ) (s : Setup) (t : Fds Desc) :
    Fds Desc :=
  if s.setupFailed ∨ !s.stage.found then []
  else
    let stdin := match s.inputFd with
      | some n => some n
      | none => if 0 < i then pipes[i - 1]?.map Prod.fst else none
    let stdout := match s.stage.outputs.length with
      | 0 => if i < ss.length - 1 then pipes[i]?.map Prod.snd else none
      | 1 => s.outputFds.head?
      | _ => s.outputPipe.map Prod.snd
    match dup2OrExit stdout 1 (dup2OrExit stdin 0 (some t)) with
    | some t => t.closeAll (stageCloses ss pipes)
    | none => []

/-- The loop over the stages that forks them. -/
def forkStages (ss : List Setup) (pipes : List (ℕ × ℕ)) : ℕ → List Setup → Kernel → Kernel
  | _, [], k => k
  | i, s :: rest, k =>
    forkStages ss pipes (i + 1) rest
      (if s.stage.forkStage then k.fork (.stage i) (stageChild ss pipes i s) else k)

/-- What the shell closes in the end. -/
def shellCloses (ss : List Setup) (pipes : List (ℕ × ℕ)) : List ℕ :=
  ends pipes ++ ss.flatMap fun s => s.fds ++ s.outputPipe.toList.flatMap fun p => [p.1, p.2]

/-- The descriptor side of `run_pipeline` and `run_pipeline_background`. -/
def runPipeline (mode : Launcher) (pipeOk : ℕ → Bool) (stages : List Stage) (k : Kernel) : Kernel :=
  let r := setupStages 0 stages k
  match makePipes pipeOk (stages.length - 1) 0 r.2 with
  | (some pipes, _, k) =>
    let c := startCopiers mode pipes stages.length 0 r.1 k
    (forkStages c.1 pipes 0 c.1 c.2).closeAll (shellCloses c.1 pipes)
  | (none, made, k) =>
    match mode with
    | .foreground => k.closeAll (ends made ++ r.1.flatMap fun s =>
        s.inputFd.toList ++ if !s.setupFailed then s.outputFds else [])
    | .background => k.closeAll (r.1.flatMap fun s => s.inputFd.toList)

end CShell
