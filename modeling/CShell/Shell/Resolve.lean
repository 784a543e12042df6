/-
  C-Shell formalization — resolving a command word (`command.c`).

  `find_path` copies `$PATH` to a buffer of `PATH_MAX` bytes and tries its
  directories in order.  `exec_command` and `exec_background_command` spell
  out the same rule (`resolveSimple`): a word with a slash is a path, a word
  `%name` is looked up in `$PATH` only, any other word first in the current
  directory.

  * `resolveSimple_of_fits`: the word is found iff `Found` holds of it.
-/
import CShell.Shell.Token
import Mathlib.Data.List.Basic

namespace CShell

open Lib

/-- `PATH_MAX` -/
def pathMax : ℕ := 4096

/-- `snprintf(path, PATH_MAX, ..)` with the formatted text `s`. -/
def snprintfPath (s : Str) : Str := s.take (pathMax - 1)

/-- The tokens of `strtok(.., ":")`. -/
def strtok (s : Str) : List Str := (s.splitOnP (· = byte ':')).filter (· ≠ [])

section
variable (isExecutable : Str → Bool) (envPath : Option Str)

/-- The loop of `find_path`. -/
def findPathLoop (filename : Str) : List Str → Option Str
  | [] => none
  | dir :: dirs =>
    let result := snprintfPath (dir ++ str "/" ++ filename)
    if isExecutable result then some result else findPathLoop filename dirs

/-- `find_path`: the first executable file in the directories of `$PATH`. -/
def findPath (filename : Str) : Except Fault (Option Str) :=
  match envPath with
  | none => return none
  | some path => do
    let pathCopy ← terminate pathMax path
    return findPathLoop isExecutable filename (strtok pathCopy)

/-- What `exec_command` and `exec_background_command` find for `argv[0]`. -/
inductive Resolution where
  /-- `command not found`, with the name that is printed -/
  | notFound (name : Str)
  /-- the path, and the new `argv[0]` -/
  | found (path argv0 : Str)
  deriving DecidableEq, Repr

/-- The lookup in `exec_command` and `exec_background_command`: a word with `/` is a path, `%name` is
    looked up in `$PATH`, any other name first in the current directory. -/
def resolveSimple (command : Str) : Except Fault Resolution :=
  if byte '/' ∈ command then
    if isExecutable command then return .found (snprintfPath command) command
    else return .notFound command
  else if command.head? = some (byte '%') then do
    match ← findPath isExecutable envPath command.tail with
    | none => return .notFound command.tail
    | some path => return .found path command.tail
  else
    let path := snprintfPath (str "./" ++ command)
    if isExecutable path then return .found path command
    else do
      match ← findPath isExecutable envPath command with
      | none => return .notFound command
      | some path => return .found path command

/-! ## Which words are found -/

/-- The name is executable in a directory of `$PATH`. -/
def InPath (filename : Str) : Prop :=
  ∃ path ∈ envPath, ∃ dir ∈ strtok path, isExecutable (snprintfPath (dir ++ str "/" ++ filename))

/-- The word names an executable file. -/
def Found (command : Str) : Prop :=
  if byte '/' ∈ command then isExecutable command = true
  else if command.head? = some (byte '%') then InPath isExecutable envPath command.tail
  else isExecutable (snprintfPath (str "./" ++ command)) ∨ InPath isExecutable envPath command

/-- `$PATH` fits the buffer of `find_path` if the word is looked up in it. -/
def LookupFits (command : Str) : Prop :=
  byte '/' ∈ command ∨
    (command.head? ≠ some (byte '%') ∧ isExecutable (snprintfPath (str "./" ++ command))) ∨
    ∀ path ∈ envPath, path.length < pathMax

variable {isExecutable envPath}

theorem findPathLoop_isSome (filename : Str) : ∀ dirs : List Str,
    (findPathLoop isExecutable filename dirs).isSome ↔
      ∃ dir ∈ dirs, isExecutable (snprintfPath (dir ++ str "/" ++ filename))
  | [] => by simp [findPathLoop]
  | dir :: dirs => by
    have ih := findPathLoop_isSome filename dirs
    by_cases h : isExecutable (snprintfPath (dir ++ str "/" ++ filename))
    · simp only [findPathLoop, h, ↓reduceIte, Option.isSome_some, true_iff]
      exact ⟨dir, by simp, h⟩
    · simp only [findPathLoop, h, Bool.false_eq_true, ↓reduceIte, ih, List.mem_cons, or_and_right,
        exists_or, exists_eq_left, false_or]

/-- `find_path` within the bounds of its buffer. -/
theorem findPath_of_fits (filename : Str) (h : ∀ path ∈ envPath, path.length < pathMax) :
    ∃ r, findPath isExecutable envPath filename = .ok r ∧
      (r.isSome ↔ InPath isExecutable envPath filename) := by
  cases envPath with
  | none => exact ⟨none, rfl, by simp [InPath]⟩
  | some path =>
    refine ⟨findPathLoop isExecutable filename (strtok path), ?_, ?_⟩
    · rw [findPath, terminate_of_lt (h path rfl)]; rfl
    · rw [findPathLoop_isSome]; simp [InPath]

theorem findPath_of_not_fits (filename : Str) (h : ¬∀ path ∈ envPath, path.length < pathMax) :
    findPath isExecutable envPath filename = .error .overrun := by
  cases envPath with
  | none => simp at h
  | some path =>
    rw [findPath, terminate, if_neg (by simpa using h)]; rfl

/-- Within the bounds of its buffers the search decides `Found`. -/
theorem resolveSimple_of_fits {command : Str} (h : LookupFits isExecutable envPath command) :
    ∃ r, resolveSimple isExecutable envPath command = .ok r ∧
      ((∃ path argv0, r = .found path argv0) ↔ Found isExecutable envPath command) := by
  unfold resolveSimple Found
  by_cases hslash : byte '/' ∈ command
  · rw [if_pos hslash, if_pos hslash]
    by_cases hx : isExecutable command
    · exact ⟨_, if_pos hx, by simp [hx]⟩
    · exact ⟨_, if_neg hx, by simp [hx]⟩
  rw [if_neg hslash, if_neg hslash]
  by_cases hpct : command.head? = some (byte '%')
  · have hpath : ∀ path ∈ envPath, path.length < pathMax := by
      rcases h with h | h | h
      · exact absurd h hslash
      · exact absurd hpct h.1
      · exact h
    obtain ⟨r, hr, hin⟩ := @findPath_of_fits isExecutable _ command.tail hpath
    rw [if_pos hpct, if_pos hpct, hr, ok_bind]
    cases r with
    | none => exact ⟨_, rfl, by simp [← hin]⟩
    | some path => exact ⟨_, rfl, by simp [← hin]⟩
  rw [if_neg hpct, if_neg hpct]
  by_cases hx : isExecutable (snprintfPath (str "./" ++ command))
  · exact ⟨_, if_pos hx, by simp [hx]⟩
  · have hpath : ∀ path ∈ envPath, path.length < pathMax := by
      rcases h with h | h | h
      · exact absurd h hslash
      · exact absurd h.2 hx
      · exact h
    obtain ⟨r, hr, hin⟩ := @findPath_of_fits isExecutable _ command hpath
    simp only [hx, Bool.false_eq_true, ↓reduceIte, hr, ok_bind, false_or]
    cases r with
    | none => exact ⟨_, rfl, by simp [← hin]⟩
    | some path => exact ⟨_, rfl, by simp [← hin]⟩

theorem resolveSimple_of_not_fits {command : Str} (h : ¬LookupFits isExecutable envPath command) :
    resolveSimple isExecutable envPath command = .error .overrun := by
  simp only [LookupFits, not_or] at h
  obtain ⟨hslash, hx, hpath⟩ := h
  rw [resolveSimple, if_neg hslash, findPath_of_not_fits _ hpath, findPath_of_not_fits _ hpath]
  by_cases hpct : command.head? = some (byte '%')
  · rw [if_pos hpct]; rfl
  · rw [if_neg hpct, if_neg fun h => hx ⟨hpct, h⟩]; rfl

end

end CShell
