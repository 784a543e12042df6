/-
  C-Shell formalization — which program a command word runs (`command.c`).

  The rule for a command word is written three times: in `exec_command`, in
  `exec_background_command` and in `resolve_command`, which the child of
  `run_pipeline` applies to `argv[0]`.  A foreground command without a pipe
  goes through the first and then, with the `argv[0]` that results, through
  the third.

  * `resolveCommand_eq`: the three texts are one rule;
  * `sameProgram_iff`: a word runs the same program in the foreground, in a
    pipeline and in the background, unless it is `%name`, `name` is found in
    `$PATH`, and applying the rule again to `name` finds another file.
-/
import CShell.Shell.Resolve

namespace CShell

open Lib

section
variable (isExecutable : Str → Bool) (envPath : Option Str)

/-- `resolve_command`: the path, if it returns `1`, and `argv0`. -/
def resolveCommand (command : Str) : Except Fault Resolution :=
  if byte '/' ∈ command then
    if ¬isExecutable command then return .notFound command
    else return .found (snprintfPath command) command
  else if command.head? = some (byte '%') then do
    match ← findPath isExecutable envPath command.tail with
    | some path => return .found path command.tail
    | none => return .notFound command.tail
  else
    let path := snprintfPath (str "./" ++ command)
    if isExecutable path then return .found path command
    else do
      match ← findPath isExecutable envPath command with
      | some path => return .found path command
      | none => return .notFound command

/-- The path given to `execv`, or `none` for `command not found`. -/
def Resolution.program : Resolution → Option Str
  | .notFound _ => none
  | .found path _ => some path

/-- A stage of a pipeline: the child of `run_pipeline` or
    `run_pipeline_background`. -/
def stageProgram (command : Str) : Except Fault (Option Str) := do
  let r ← resolveCommand isExecutable envPath command
  return r.program

/-- `exec_command` without a pipe: it resolves the word, and the child of
    `run_pipeline` resolves the new `argv[0]`. -/
def foregroundProgram (command : Str) : Except Fault (Option Str) := do
  match ← resolveSimple isExecutable envPath command with
  | .notFound _ => return none
  | .found _ argv0 => stageProgram isExecutable envPath argv0

/-- `exec_background_command`, whose path `run_background` executes. -/
def backgroundProgram (command : Str) : Except Fault (Option Str) := do
  let r ← resolveSimple isExecutable envPath command
  return r.program

/-- The word runs the same program however it is run. -/
def SameProgram (command : Str) : Prop :=
  foregroundProgram isExecutable envPath command = stageProgram isExecutable envPath command ∧
    backgroundProgram isExecutable envPath command = stageProgram isExecutable envPath command

/-- The first executable file among `dir/filename` for the directories of a
    `$PATH`. -/
def firstIn (path filename : Str) : Option Str :=
  ((strtok path).map fun dir => snprintfPath (dir ++ str "/" ++ filename)).find? isExecutable

/-- For a word `%name` with `name` found as `file` in `$PATH`: `./name` is not
    another executable file, and where `name` begins with `%` itself, the rest
    of it is found as `file` too. -/
def PercentSafe (command : Str) : Prop :=
  ∀ name path file, command = byte '%' :: name → byte '/' ∉ name → envPath = some path →
    path.length < pathMax → firstIn isExecutable path name = some file →
      if name.head? = some (byte '%') then firstIn isExecutable path name.tail = some file
      else isExecutable (snprintfPath (str "./" ++ name)) → snprintfPath (str "./" ++ name) = file

variable {isExecutable envPath} {command : Str}

/-! ## One rule -/

/-- **The rule of `resolve_command` is that of the other two.** -/
theorem resolveCommand_eq (command : Str) :
    resolveCommand isExecutable envPath command = resolveSimple isExecutable envPath command := by
  unfold resolveCommand resolveSimple
  by_cases hslash : byte '/' ∈ command
  · rw [if_pos hslash, if_pos hslash, ite_not]
  rw [if_neg hslash, if_neg hslash]
  by_cases hpct : command.head? = some (byte '%')
  · rw [if_pos hpct, if_pos hpct]
    rcases findPath isExecutable envPath command.tail with e | _ | path <;> rfl
  · rw [if_neg hpct, if_neg hpct]
    rcases findPath isExecutable envPath command with e | _ | path <;> rfl

theorem findPathLoop_eq (filename : Str) : ∀ dirs : List Str,
    findPathLoop isExecutable filename dirs =
      (dirs.map fun dir => snprintfPath (dir ++ str "/" ++ filename)).find? isExecutable
  | [] => rfl
  | dir :: dirs => by
    rw [findPathLoop, List.map_cons, List.find?_cons, findPathLoop_eq filename dirs]
    cases isExecutable (snprintfPath (dir ++ str "/" ++ filename)) <;> rfl

/-- `find_path` finds the first executable file of `$PATH`. -/
theorem findPath_some {path : Str} (h : path.length < pathMax) (filename : Str) :
    findPath isExecutable (some path) filename = .ok (firstIn isExecutable path filename) := by
  rw [findPath, terminate_of_lt h, firstIn, ← findPathLoop_eq]
  rfl

/-- The background does what a stage does. -/
theorem backgroundProgram_eq (command : Str) :
    backgroundProgram isExecutable envPath command = stageProgram isExecutable envPath command := by
  rw [backgroundProgram, stageProgram, resolveCommand_eq]

/-- A word other than `%name` keeps its `argv[0]`. -/
theorem argv0_of_found {path argv0 : Str}
    (h : byte '/' ∈ command ∨ command.head? ≠ some (byte '%'))
    (hr : resolveSimple isExecutable envPath command = .ok (.found path argv0)) :
    argv0 = command := by
  unfold resolveSimple at hr
  by_cases hslash : byte '/' ∈ command
  · rw [if_pos hslash] at hr
    split at hr <;> cases hr
    rfl
  rw [if_neg hslash, if_neg (h.resolve_left hslash)] at hr
  simp only at hr
  split at hr
  · cases hr
    rfl
  · rcases hf : findPath isExecutable envPath command with e | _ | path' <;> rw [hf] at hr <;>
      cases hr
    rfl

/-- Resolving such a word again finds the same. -/
theorem foregroundProgram_of_ne (h : byte '/' ∈ command ∨ command.head? ≠ some (byte '%')) :
    foregroundProgram isExecutable envPath command = stageProgram isExecutable envPath command := by
  rw [foregroundProgram, stageProgram, resolveCommand_eq]
  rcases hr : resolveSimple isExecutable envPath command with e | r
  · rfl
  cases r with
  | notFound name => rfl
  | found path argv0 =>
    rw [ok_bind, argv0_of_found h hr]
    show stageProgram isExecutable envPath command = _
    rw [stageProgram, resolveCommand_eq, hr]
    rfl

/-! ## Words `%name` -/

variable {name : Str}

theorem stageProgram_percent (hslash : byte '/' ∉ name) :
    stageProgram isExecutable envPath (byte '%' :: name) = findPath isExecutable envPath name := by
  have hno : byte '/' ∉ byte '%' :: name := by
    rw [List.mem_cons, not_or]
    exact ⟨by decide, hslash⟩
  rw [stageProgram, resolveCommand, if_neg hno, if_pos (List.head?_cons ..), List.tail_cons]
  rcases findPath isExecutable envPath name with e | _ | path <;> rfl

/-- A foreground `%name` that is in `$PATH` is resolved again as `name`. -/
theorem foregroundProgram_percent (hslash : byte '/' ∉ name) :
    foregroundProgram isExecutable envPath (byte '%' :: name) =
      findPath isExecutable envPath name >>= fun r =>
        match r with
        | none => .ok none
        | some _ => stageProgram isExecutable envPath name := by
  have hno : byte '/' ∉ byte '%' :: name := by
    rw [List.mem_cons, not_or]
    exact ⟨by decide, hslash⟩
  rw [foregroundProgram, resolveSimple, if_neg hno, if_pos (List.head?_cons ..), List.tail_cons]
  rcases findPath isExecutable envPath name with e | _ | path <;> rfl

/-- What a name without slash and `%` runs that is found in `$PATH`. -/
theorem stageProgram_plain (hslash : byte '/' ∉ name) (hpct : name.head? ≠ some (byte '%'))
    {file : Str} (hf : findPath isExecutable envPath name = .ok (some file)) :
    stageProgram isExecutable envPath name =
      .ok (some (if isExecutable (snprintfPath (str "./" ++ name)) then snprintfPath (str "./" ++ name)
        else file)) := by
  rw [stageProgram, resolveCommand, if_neg hslash, if_neg hpct]
  simp only [hf]
  split <;> rfl

/-- **A word runs the same program in the foreground, in a pipeline and in the
    background iff** it is not `%name` with a `name` that is found in `$PATH`
    and runs another file if it is resolved again. -/
theorem sameProgram_iff (command : Str) :
    SameProgram isExecutable envPath command ↔ PercentSafe isExecutable envPath command := by
  rw [SameProgram, and_iff_left (backgroundProgram_eq command)]
  by_cases h : byte '/' ∈ command ∨ command.head? ≠ some (byte '%')
  · refine iff_of_true (foregroundProgram_of_ne h) ?_
    rintro name path file rfl hslash
    simp [hslash, show byte '/' ≠ byte '%' by decide] at h
  obtain ⟨hno, hpct⟩ := not_or.1 h
  obtain ⟨name, rfl⟩ : ∃ name, command = byte '%' :: name := by
    cases command with
    | nil => simp at hpct
    | cons c name => exact ⟨name, by simpa using hpct⟩
  have hslash : byte '/' ∉ name := fun hmem => hno (List.mem_cons_of_mem _ hmem)
  rw [foregroundProgram_percent hslash, stageProgram_percent hslash]
  rcases envPath with _ | path
  · exact iff_of_true rfl nofun
  by_cases hlen : path.length < pathMax
  · rw [findPath_some hlen, ok_bind]
    rcases hf : firstIn isExecutable path name with _ | file
    · refine iff_of_true rfl ?_
      rintro _ _ file ⟨⟩ - ⟨⟩ - hfile
      rw [hf] at hfile
      cases hfile
    · have hfind := (findPath_some hlen name).trans (congrArg Except.ok hf)
      -- only this `name` and `path` matter
      have hsafe : PercentSafe isExecutable (some path) (byte '%' :: name) ↔
          if name.head? = some (byte '%') then firstIn isExecutable path name.tail = some file
          else isExecutable (snprintfPath (str "./" ++ name)) →
            snprintfPath (str "./" ++ name) = file := by
        refine ⟨fun h => h name path file rfl hslash rfl hlen hf, ?_⟩
        rintro h _ _ file' ⟨⟩ - ⟨⟩ - hfile
        cases hf.symm.trans hfile
        exact h
      rw [hsafe]
      simp only
      by_cases hpp : name.head? = some (byte '%')
      · rw [if_pos hpp]
        obtain ⟨rest, rfl⟩ : ∃ rest, name = byte '%' :: rest := by
          cases name with
          | nil => simp at hpp
          | cons c rest => exact ⟨rest, by simpa using hpp⟩
        rw [stageProgram_percent fun hmem => hslash (List.mem_cons_of_mem _ hmem),
          findPath_some hlen, Except.ok.injEq, List.tail_cons]
      · rw [if_neg hpp, stageProgram_plain hslash hpp hfind, Except.ok.injEq, Option.some.injEq]
        split <;> simp_all
  · have herr := @findPath_of_not_fits isExecutable (some path) name (by simpa using hlen)
    rw [herr]
    refine iff_of_true rfl ?_
    rintro _ _ file - - ⟨⟩ hlen'
    exact absurd hlen' hlen

end

/-- `%ls` in a directory with a file `ls` of its own: in the foreground `./ls`
    is run, in a pipeline and in the background `/bin/ls`. -/
theorem percent_runs_local_file :
    let isExecutable := fun file => file ∈ [str "./ls", str "/bin/ls"]
    foregroundProgram isExecutable (some (str "/bin")) (str "%ls") = .ok (some (str "./ls")) ∧
      stageProgram isExecutable (some (str "/bin")) (str "%ls") = .ok (some (str "/bin/ls")) ∧
      backgroundProgram isExecutable (some (str "/bin")) (str "%ls") =
        .ok (some (str "/bin/ls")) := by
  decide

end CShell
