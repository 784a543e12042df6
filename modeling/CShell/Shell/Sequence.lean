/-
  C-Shell formalization — executing a line (`main.c`, `sequence.c`, `command.c`).

  `main` gives an accepted line to a built-in or to `sequence_command`, which
  runs its segments with `exec_command` and `exec_background_command`.  What
  these call in turn (the launchers of processes, the built-ins, the file
  system) is a parameter: operations on a state `σ` of the shell (`Env`).

  The model also keeps a log of the calls made for a line (`Event`): the
  tokens given to a built-in, and what the builders made of a segment.
-/
import CShell.Shell.Builder
import CShell.Shell.Resolve

namespace CShell

open Lib

/-- The built-ins, each with its own `exec_` function. -/
inductive Builtin where
  | hop | reveal | peek | locate | activities | resume | ping | spy | snoop
  deriving DecidableEq, Repr

/-- The comparisons of `main` with the first token. -/
def Builtin.ofName (name : Str) : Option Builtin :=
  if name = str "hop" then some .hop
  else if name = str "reveal" then some .reveal
  else if name = str "peek" then some .peek
  else if name = str "locate" then some .locate
  else if name = str "activities" then some .activities
  else if name = str "resume" then some .resume
  else if name = str "ping" then some .ping
  else if name = str "spy" then some .spy
  else if name = str "snoop" then some .snoop
  else none

/-- The built-in named by the first token. -/
def builtinOf (tokens : List Token) : Option Builtin :=
  (tokens.head?.map Token.value).bind Builtin.ofName

/-- What the functions of this file call.  `$PATH` is not changed by the
    shell. -/
structure Env (σ : Type) where
  isExecutable : σ → Str → Bool
  path : Option Str
  printf : Str → σ → σ
  runPipeline : List (Command Str) → ℕ → σ → σ
  runPipelineBackground : List (Command Str) → ℕ → σ → σ
  runBackground : (path : Str) → Command Str → σ → σ
  builtin : Builtin → List Token → σ → σ
  drainBackgroundNotifications : σ → σ

/-- What the builders make of a segment without a pipe. -/
inductive Built where
  /-- `parse_input_redirect` fails -/
  | badInput
  /-- `parse_output_redirection` fails -/
  | badOutput
  | command (c : Command Str)
  deriving DecidableEq, Repr

/-- A call made for a line. -/
inductive Event where
  /-- a built-in with the tokens it is given -/
  | builtin (b : Builtin) (tokens : List Token)
  /-- a segment with a pipe, with the result of `parse_pipeline` -/
  | pipeline (background : Bool) (built : Option (List (Command Str) × ℕ))
  /-- another segment, with the command built for it -/
  | simple (background : Bool) (built : Built)
  deriving DecidableEq, Repr

/-- The state of the surroundings, and what the shell has launched. -/
structure World (σ : Type) where
  state : σ
  log : List Event

section
variable {σ : Type}

variable (env : Env σ)

/-- The message for a command that cannot be built. -/
def invalidSyntax : Str := str "cshell: invalid syntax\n"

/-- The message for a command that is not found. -/
def commandNotFound (name : Str) : Str :=
  str "cshell: command not found (" ++ name ++ str ")\n"

/-- The common head of `exec_command` and `exec_background_command`. -/
def parseSimple (current : List Token) : Except Fault Built := do
  match ← parseInputRedirect Token.value current with
  | none => return .badInput
  | some (argv, inputFiles) =>
    match ← parseOutputRedirection id argv with
    | none => return .badOutput
    | some (argv, outputFiles) => return .command ⟨argv, inputFiles, outputFiles⟩

/-- `exec_command` after the builders. -/
def launchSimple (built : Built) (s : σ) : Except Fault (ℕ × σ) :=
  match built with
  | .badInput => return (0, env.printf invalidSyntax s)
  | .badOutput => return (0, s)
  | .command ⟨[], _, _⟩ => return (0, s)
  | .command ⟨command :: args, inputFiles, outputFiles⟩ => do
    match ← resolveSimple (env.isExecutable s) env.path command with
    | .notFound name => return (1, env.printf (commandNotFound name) s)
    | .found _ argv0 => return (0, env.runPipeline [⟨argv0 :: args, inputFiles, outputFiles⟩] 1 s)

/-- `exec_background_command` after the builders. -/
def launchBackground (built : Built) (s : σ) : Except Fault σ :=
  match built with
  | .badInput => return env.printf invalidSyntax s
  | .badOutput => return env.printf invalidSyntax s
  | .command ⟨[], _, _⟩ => return env.printf invalidSyntax s
  | .command ⟨command :: args, inputFiles, outputFiles⟩ => do
    match ← resolveSimple (env.isExecutable s) env.path command with
    | .notFound name => return env.printf (commandNotFound name) s
    | .found path argv0 => return env.runBackground path ⟨argv0 :: args, inputFiles, outputFiles⟩ s

/-- The same for a pipeline, in the foreground or in the background. -/
def launchPipeline (background : Bool) (built : Option (List (Command Str) × ℕ)) (s : σ) : σ :=
  match built with
  | none => env.printf invalidSyntax s
  | some (stages, count) =>
    if background then env.runPipelineBackground stages count s else env.runPipeline stages count s

/-- `exec_command`: a pipeline or a simple command in the foreground. -/
def execCommand (current : List Token) (w : World σ) : Except Fault (ℕ × World σ) := do
  if hasPipeline current then
    let built ← parsePipeline Token.value id current
    return (0, ⟨launchPipeline env false built w.state, w.log ++ [.pipeline false built]⟩)
  else
    let built ← parseSimple current
    let (res, s) ← launchSimple env built w.state
    return (res, ⟨s, w.log ++ [.simple false built]⟩)

/-- `exec_background_command`: the simple command before an `&`. -/
def execBackgroundCommand (current : List Token) (w : World σ) : Except Fault (World σ) := do
  let built ← parseSimple current
  let s ← launchBackground env built w.state
  return ⟨s, w.log ++ [.simple true built]⟩

/-- The branch of `sequence_command` for a segment ended by `OP_AMP`. -/
def execBackgroundSegment (start : List Token) (w : World σ) : Except Fault (World σ) := do
  if hasPipeline start then
    let built ← parsePipeline Token.value id start
    return ⟨launchPipeline env true built w.state, w.log ++ [.pipeline true built]⟩
  else
    execBackgroundCommand env start w

/-- The inner loop of `sequence_command`. -/
def skipSegment : List Token → List Token
  | [] => []
  | t :: current => if t.endsSegment then t :: current else skipSegment current

/-- The outer loop of `sequence_command`. -/
def sequenceLoop : ℕ → List Token → World σ → Except Fault (ℕ × World σ)
  | 0, _, _ => .error .fuel
  | _ + 1, [], w => return (0, w)
  | n + 1, start, w => do
    let current := skipSegment start
    if current.head? = some (.op .amp) then
      let w ← execBackgroundSegment env start w
      sequenceLoop n current.tail w
    else
      let (res, w) ← execCommand env start w
      if res ≠ 0 then
        return (res, w)
      else
        sequenceLoop n current.tail w

/-- `sequence_command`. -/
def sequenceCommand (current : List Token) (w : World σ) : Except Fault (ℕ × World σ) :=
  sequenceLoop env (current.length + 1) current w

/-- The tokens given to a built-in: `exec_activities` takes none. -/
def given (b : Builtin) (tokens : List Token) : List Token := if b = .activities then [] else tokens

/-- The branches of `main` for an accepted line. -/
def dispatch (tokens : List Token) (w : World σ) : Except Fault (World σ) := do
  match builtinOf tokens with
  | some b => return ⟨env.builtin b (given b tokens) w.state, w.log ++ [.builtin b (given b tokens)]⟩
  | none =>
    let (_, w) ← sequenceCommand env tokens w
    return w

/-- The body of the loop of `main` from the accepted tokens on. -/
def executeLine (tokens : List Token) (w : World σ) : Except Fault (World σ) := do
  let w ← dispatch env tokens w
  return ⟨env.drainBackgroundNotifications w.state, w.log⟩

end

/-- A shell whose calls change nothing, with the executable files `files` and
    an empty `$PATH`. -/
def quietEnv (files : List Str) : Env Unit where
  isExecutable _ file := file ∈ files
  path := none
  printf _ _ := ()
  runPipeline _ _ _ := ()
  runPipelineBackground _ _ _ := ()
  runBackground _ _ _ := ()
  builtin _ _ _ := ()
  drainBackgroundNotifications _ := ()

end CShell
