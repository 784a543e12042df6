/-
  C-Shell formalization — building commands from tokens (`command.c`).

  `parse_input_redirect` and `parse_output_redirection` build a simple command
  from the tokens of a segment, `parse_pipeline` and `parse_pipeline_stage` the
  stages of a pipeline.  They tell operators from words by comparing texts.

  The arrays `argv`, `input_files` and `output_files` hold pointers into the
  tokens.  The definitions leave open what is kept of a token: `entry` says
  what is stored for it and `text` which string an entry points to.  The shell
  itself keeps the text (`simpleCommand`, `pipeline`).
-/
import CShell.Shell.Token

namespace CShell

open Lib

/-- The size of `argv`, `raw_argv`, `input_files` and `output_files`. -/
def maxArgs : ℕ := 100

/-- `struct output_file` -/
structure OutputFile (α : Type) where
  name : α
  append : Bool
  deriving DecidableEq, Repr

/-- The command of a `struct pipeline_stage`. -/
structure Command (α : Type) where
  argv : List α
  inputFiles : List α
  outputFiles : List (OutputFile α)
  deriving DecidableEq, Repr

section
variable {α : Type} (entry : Token → α) (text : α → Str)

/-! ## Simple commands -/

/-- The common loop of `parse_input_redirect` and `parse_pipeline_stage`, from
    the cursor `current` up to the token where `stop` holds. -/
def redirectLoop (stop : Token → Bool) (argv files : List α) :
    List Token → Except Fault (Option (List α × List α))
  | [] => do return some (← terminate maxArgs argv, files)
  | t :: current =>
    if stop t then do
      return some (← terminate maxArgs argv, files)
    else if t.value = str "<" then
      match current with
      | .word w :: current => do
        redirectLoop stop argv (← push maxArgs files (entry (.word w))) current
      | _ => return none
    else do
      redirectLoop stop (← push maxArgs argv (entry t)) files current

section
variable {entry} {stop : Token → Bool} {t : Token} {argv files : List α}

theorem redirectLoop_nil :
    redirectLoop entry stop argv files [] = (terminate maxArgs argv >>= fun a => .ok (some (a, files))) :=
  rfl

theorem redirectLoop_stop (h : stop t) (ts : List Token) :
    redirectLoop entry stop argv files (t :: ts) = redirectLoop entry stop argv files [] := by
  rw [redirectLoop.eq_def]; exact if_pos h

theorem redirectLoop_file (hstop : ¬stop t) (hlt : t.value = str "<") (w : Str) (ts : List Token) :
    redirectLoop entry stop argv files (t :: .word w :: ts) =
      (push maxArgs files (entry (.word w)) >>= fun files => redirectLoop entry stop argv files ts) := by
  rw [redirectLoop.eq_def]; exact (if_neg hstop).trans (if_pos hlt)

theorem redirectLoop_noFile (hstop : ¬stop t) (hlt : t.value = str "<") {ts : List Token}
    (hts : ∀ w us, ts ≠ .word w :: us) :
    redirectLoop entry stop argv files (t :: ts) = .ok none := by
  rw [redirectLoop.eq_def]
  refine ((if_neg hstop).trans (if_pos hlt)).trans ?_
  match ts, hts with
  | [], _ => rfl
  | .op o :: us, _ => rfl
  | .word w :: us, h => exact absurd rfl (h w us)

theorem redirectLoop_arg (hstop : ¬stop t) (hlt : t.value ≠ str "<") (ts : List Token) :
    redirectLoop entry stop argv files (t :: ts) =
      (push maxArgs argv (entry t) >>= fun argv => redirectLoop entry stop argv files ts) := by
  rw [redirectLoop.eq_def]; exact (if_neg hstop).trans (if_neg hlt)

end

/-- The texts at which `parse_input_redirect` stops. -/
def isEnd (t : Token) : Bool := t.value = str ";" || t.value = str "&"

/-- `parse_input_redirect`: the arguments and the input files. -/
def parseInputRedirect (current : List Token) : Except Fault (Option (List α × List α)) :=
  redirectLoop entry isEnd [] [] current

/-- An entry that `parse_output_redirection` takes for an operator. -/
def isOutput (a : α) : Prop := text a = str ">" ∨ text a = str ">>"

instance : DecidablePred (isOutput text) := fun a =>
  inferInstanceAs (Decidable (text a = str ">" ∨ text a = str ">>"))

/-- The loop of `parse_output_redirection` with `n = argc - i` entries left.
    It moves the entries that stay to the front of `argv`, in place. -/
def outputLoop (argv : List α) (i newArgc : ℕ) (files : List (OutputFile α)) :
    ℕ → Except Fault (Option (List α × List (OutputFile α)))
  | 0 => return some (argv.take newArgc, files)
  | n + 1 =>
    match argv[i]? with
    | none => .error .overread
    | some a =>
      if isOutput text a then
        match n with
        | 0 => return none
        | n + 1 =>
          match argv[i + 1]? with
          | none => .error .overread
          | some name => do
            let files ← push maxArgs files ⟨name, text a = str ">>"⟩
            outputLoop argv (i + 2) newArgc files n
      else
        outputLoop (argv.set newArgc a) (i + 1) (newArgc + 1) files n

/-- `parse_output_redirection`: what is left of the arguments, and the output files. -/
def parseOutputRedirection (argv : List α) : Except Fault (Option (List α × List (OutputFile α))) :=
  outputLoop text argv 0 0 [] argv.length

/-- `parse_input_redirect` followed by `parse_output_redirection`, as both
    `exec_command` and `exec_background_command` call them. -/
def buildSimple (current : List Token) : Except Fault (Option (Command α)) := do
  match ← parseInputRedirect entry current with
  | none => return none
  | some (argv, inputFiles) =>
    match ← parseOutputRedirection text argv with
    | none => return none
    | some (argv, outputFiles) => return some ⟨argv, inputFiles, outputFiles⟩

/-! ## Pipelines -/

/-- `parse_pipeline_stage` on the tokens from `start` to `end`. -/
def parsePipelineStage (tokens : List Token) : Except Fault (Option (Command α)) := do
  match ← redirectLoop entry (fun _ => false) [] [] tokens with
  | none => return none
  | some (rawArgv, inputFiles) =>
    match ← parseOutputRedirection text rawArgv with
    | none => return none
    | some (argv, outputFiles) =>
      let argv ← terminate maxArgs argv
      if argv.length > 0 then
        return some ⟨argv, inputFiles, outputFiles⟩
      else
        return none

end

/-- A segment of a line ends at `OP_SEMI` and `OP_AMP`. -/
def Token.endsSegment (t : Token) : Bool := t = .op .semi || t = .op .amp

/-- `has_pipeline`: there is a `|` before the end of the command. -/
def hasPipeline : List Token → Bool
  | [] => false
  | t :: current =>
    if t.endsSegment then false
    else if t = .op .pipe then true
    else hasPipeline current

/-- The first loop of `parse_pipeline`. -/
def countStages (count : ℕ) : List Token → ℕ
  | [] => count
  | t :: cursor =>
    if t.endsSegment then count
    else countStages (if t = .op .pipe then count + 1 else count) cursor

section
variable {α : Type} (entry : Token → α) (text : α → Str)

/-- The second loop of `parse_pipeline`; `start` are the tokens between the
    pointers `start` and `cursor`. -/
def pipelineLoop (count : ℕ) (start : List Token) (result : List (Command α)) :
    List Token → Except Fault (Option (List (Command α)))
  | [] => do
    match ← parsePipelineStage entry text start with
    | none => return none
    | some stage => return some (← push count result stage)
  | t :: cursor =>
    if t.endsSegment then do
      match ← parsePipelineStage entry text start with
      | none => return none
      | some stage => return some (← push count result stage)
    else if t = .op .pipe then do
      match ← parsePipelineStage entry text start with
      | none => return none
      | some stage => pipelineLoop count [] (← push count result stage) cursor
    else
      pipelineLoop count (start ++ [t]) result cursor

/-- `parse_pipeline`: the stages with `stage_count`. -/
def parsePipeline (current : List Token) : Except Fault (Option (List (Command α) × ℕ)) := do
  let count := countStages 1 current
  match ← pipelineLoop entry text count [] [] current with
  | none => return none
  | some stages => return some (stages, count)

end

end CShell
