/-
  C-Shell formalization — the files a process has mapped (`print_mem_entries`
  in `spy.c`).

  A path is printed if it is not among the remembered ones, of which there are
  at most 512.

  * `count_passed`: a path that is remembered is printed once, another one each
    time it occurs;
  * `print_mem_entries_iff`: each path is printed once, in the order of the first
    occurrences, iff all that occur more than once are among the first 512.
-/
import CShell.Shell.Token
import CShell.Lib.Backwards
import CShell.Lib.Occurrences
import Mathlib.Data.List.DropRight
import Mathlib.Data.List.Nodup

namespace CShell

open Lib

/-! ## print_mem_entries -/

/-- `MAX_MEM_PATHS` -/
def maxMemPaths : ℕ := 512

/-- `PATH_BUF_LEN` -/
def pathBufLen : ℕ := 4096

/-- What is removed at the end of a path. -/
def isLineEnd (b : UInt8) : Bool := b == newline || b == byte '\r'

/-- The path in a line of the file, if it has one. -/
def mapPath (line : Str) : Option Str :=
  match strchr line (byte '/') with
  | none => none
  | some path =>
    let path := path.rdropWhile isLineEnd
    if path.length = 0 then none else some path

/-- `seen`, up to `seen_count`, and the paths `print_entry` has been called with. -/
structure MemState where
  seen : List Str
  passed : List Str

/-- `dup`, after the loop over `seen`. -/
def MemState.dup (m : MemState) (path : Str) : Bool := m.seen.any fun s => strcmp s path = 0

/-- The rest of the loop's body, for a path. -/
def MemState.pass (m : MemState) (path : Str) : MemState :=
  if m.dup path then m
  else
    { seen := if m.seen.length < maxMemPaths then m.seen ++ [path] else m.seen
      passed := m.passed ++ [path] }

/-- The body of the loop. -/
def MemState.line (m : MemState) (line : Str) : MemState :=
  match mapPath line with
  | some path => m.pass path
  | none => m

/-- `print_mem_entries`: the paths given to `print_entry`, for the content of
    `/proc/<pid>/maps` if it can be opened. -/
def printMemEntries : Option Str → List Str
  | none => []
  | some maps => ((fgetsLines (pathBufLen + 256) [] maps).foldl MemState.line ⟨[], []⟩).passed

/-! ## The paths of the file -/

/-- The state after the lines with these paths. -/
def MemState.after (paths : List Str) : MemState := paths.foldl MemState.pass ⟨[], []⟩

/-- A line end does not belong to the path. -/
theorem mapPath_concat_newline (l : Str) : mapPath (l ++ [newline]) = mapPath l := by
  by_cases h0 : 0 ∈ l
  · rw [mapPath, mapPath, strchr, strchr, cString_append_of_mem h0]
  · have h0' : 0 ∉ l ++ [newline] := by
      rw [List.mem_append, not_or]
      exact ⟨h0, by decide⟩
    rw [mapPath, mapPath, strchr, strchr, cString_of_notMem h0, cString_of_notMem h0']
    by_cases hs : byte '/' ∈ l
    · have hdrop : (l ++ [newline]).dropWhile (· ≠ byte '/') =
          l.dropWhile (· ≠ byte '/') ++ [newline] := by
        rw [List.dropWhile_append, if_neg]
        simpa [List.dropWhile_eq_nil_iff] using hs
      rw [if_pos hs, if_pos (List.mem_append_left _ hs), hdrop]
      simp only [List.rdropWhile_concat_pos isLineEnd _ newline (by decide)]
    · have hs' : byte '/' ∉ l ++ [newline] := by
        rw [List.mem_append, not_or]
        exact ⟨hs, by decide⟩
      rw [if_neg hs, if_neg hs']

theorem foldl_line (lines : List Str) (m : MemState) :
    lines.foldl MemState.line m = (lines.filterMap mapPath).foldl MemState.pass m := by
  induction lines generalizing m with
  | nil => rfl
  | cons l lines ih =>
    rw [List.foldl_cons, ih, MemState.line]
    cases h : mapPath l with
    | none => rw [List.filterMap_cons_none h]
    | some path => rw [List.filterMap_cons_some h, List.foldl_cons]

/-- What is printed depends on the paths in the lines only. -/
theorem printMemEntries_eq {lines : List Str}
    (h : ∀ l ∈ lines, newline ∉ l ∧ l.length < pathBufLen + 256) :
    printMemEntries (some (lines.map (· ++ [newline])).flatten) =
      (MemState.after (lines.filterMap mapPath)).passed := by
  have hpieces := pieces_flatten (x := newline) fun l hl => (h l hl).1
  have hlen : ∀ l ∈ pieces newline (lines.map (· ++ [newline])).flatten,
      l.length < pathBufLen + 256 := by
    intro l hl
    rw [hpieces, List.mem_append, List.mem_singleton] at hl
    rcases hl with hl | rfl
    · exact (h l hl).2
    · decide
  rw [printMemEntries, foldl_line,
    filterMap_fgetsLines (by decide) mapPath_concat_newline hlen, hpieces, List.filterMap_append]
  have hlast : List.filterMap mapPath [[]] = [] := by decide
  rw [hlast, List.append_nil, MemState.after]

/-! ## What is remembered and what is printed -/

theorem MemState.dup_iff (m : MemState) (path : Str) : m.dup path = true ↔ path ∈ m.seen := by
  rw [dup, List.any_eq_true]
  constructor
  · rintro ⟨s, hs, hcmp⟩
    rw [← eq_of_strcmp (of_decide_eq_true hcmp)]
    exact hs
  · intro h
    exact ⟨path, h, decide_eq_true (strcmp_self path)⟩

theorem MemState.pass_of_mem {m : MemState} {path : Str} (h : path ∈ m.seen) : m.pass path = m := by
  rw [pass, if_pos ((m.dup_iff path).2 h)]

theorem MemState.pass_of_notMem {m : MemState} {path : Str} (h : path ∉ m.seen) :
    m.pass path =
      { seen := if m.seen.length < maxMemPaths then m.seen ++ [path] else m.seen
        passed := m.passed ++ [path] } := by
  rw [pass, if_neg (mt (m.dup_iff path).1 h)]

theorem MemState.after_concat (paths : List Str) (p : Str) :
    MemState.after (paths ++ [p]) = (MemState.after paths).pass p := by
  simp [MemState.after]

/-- The table holds the first paths. -/
theorem MemState.seen_after (paths : List Str) :
    (MemState.after paths).seen = firstDistinct maxMemPaths paths := by
  induction paths using List.reverseRecOn with
  | nil => rfl
  | append_singleton paths p ih =>
    rw [after_concat]
    by_cases hp : p ∈ firstDistinct maxMemPaths paths
    · rw [pass_of_mem (ih ▸ hp), ih, firstDistinct_concat_of_mem (mem_of_mem_firstDistinct hp)]
    · rw [pass_of_notMem (ih ▸ hp), ih]
      by_cases hroom : (firstDistinct maxMemPaths paths).length < maxMemPaths
      · rw [firstDistinct_concat_of_room hp hroom]
        exact if_pos hroom
      · rw [firstDistinct_concat_of_full (Nat.le_of_not_lt hroom)]
        exact if_neg hroom

theorem MemState.passed_concat_of_mem {paths : List Str} {p : Str}
    (h : p ∈ firstDistinct maxMemPaths paths) :
    (MemState.after (paths ++ [p])).passed = (MemState.after paths).passed := by
  rw [after_concat, pass_of_mem]
  rw [seen_after]
  exact h

theorem MemState.passed_concat_of_notMem {paths : List Str} {p : Str}
    (h : p ∉ firstDistinct maxMemPaths paths) :
    (MemState.after (paths ++ [p])).passed = (MemState.after paths).passed ++ [p] := by
  rw [after_concat, pass_of_notMem]
  rw [seen_after]
  exact h

/-- **Order.**  First occurrences are printed in their order. -/
theorem eraseDups_passed (paths : List Str) :
    (MemState.after paths).passed.eraseDups = paths.eraseDups := by
  induction paths using List.reverseRecOn with
  | nil => rfl
  | append_singleton paths p ih =>
    have hmem : p ∈ (MemState.after paths).passed ↔ p ∈ paths := by
      rw [← List.mem_eraseDups, ih, List.mem_eraseDups]
    by_cases hp : p ∈ firstDistinct maxMemPaths paths
    · rw [MemState.passed_concat_of_mem hp, ih,
        eraseDups_concat_of_mem (mem_of_mem_firstDistinct hp)]
    · rw [MemState.passed_concat_of_notMem hp]
      by_cases hold : p ∈ paths
      · rw [eraseDups_concat_of_mem (hmem.2 hold), eraseDups_concat_of_mem hold, ih]
      · rw [eraseDups_concat_of_notMem (mt hmem.1 hold), eraseDups_concat_of_notMem hold, ih]

/-- **How often.**  A remembered path is printed once, another one each time. -/
theorem count_passed (paths : List Str) (q : Str) :
    (MemState.after paths).passed.count q =
      if q ∈ firstDistinct maxMemPaths paths then 1 else paths.count q := by
  induction paths using List.reverseRecOn with
  | nil => simp [MemState.after, firstDistinct]
  | append_singleton paths p ih =>
    by_cases hp : p ∈ firstDistinct maxMemPaths paths
    · rw [MemState.passed_concat_of_mem hp, ih,
        firstDistinct_concat_of_mem (mem_of_mem_firstDistinct hp)]
      by_cases hq : q ∈ firstDistinct maxMemPaths paths
      · rw [if_pos hq, if_pos hq]
      · have hne : p ≠ q := by
          rintro rfl
          exact hq hp
        rw [if_neg hq, if_neg hq, List.count_append, List.count_singleton, beq_false_of_ne hne]
        rfl
    · rw [MemState.passed_concat_of_notMem hp, List.count_append, List.count_append, ih]
      by_cases hroom : (firstDistinct maxMemPaths paths).length < maxMemPaths
      · -- the path is new and gets a place
        have hnew := notMem_of_notMem_firstDistinct hp hroom
        rw [firstDistinct_concat_of_room hp hroom]
        by_cases hq : q = p
        · subst hq
          simp [hp, List.count_eq_zero_of_not_mem hnew]
        · simp [hq, Ne.symm hq]
      · rw [firstDistinct_concat_of_full (Nat.le_of_not_lt hroom)]
        by_cases hq : q ∈ firstDistinct maxMemPaths paths
        · have hne : p ≠ q := by
            rintro rfl
            exact hp hq
          rw [if_pos hq, if_pos hq, List.count_singleton, beq_false_of_ne hne]
          rfl
        · rw [if_neg hq, if_neg hq]

/-- Each path is printed once iff those that occur again are remembered. -/
theorem passed_eq_iff (paths : List Str) :
    (MemState.after paths).passed = paths.eraseDups ↔
      ∀ p, 2 ≤ paths.count p → p ∈ firstDistinct maxMemPaths paths := by
  have hnodup : (MemState.after paths).passed = paths.eraseDups ↔
      (MemState.after paths).passed.Nodup := by
    constructor
    · intro h
      rw [h]
      exact nodup_eraseDups paths
    · intro h
      rw [← eraseDups_passed paths, eraseDups_of_nodup h]
  rw [hnodup, List.nodup_iff_count_le_one]
  refine forall_congr' fun p => ?_
  rw [count_passed]
  by_cases hp : p ∈ firstDistinct maxMemPaths paths
  · simp [hp]
  · rw [if_neg hp]
    constructor
    · intro hle htwo
      omega
    · intro h
      by_contra hlt
      exact hp (h (by omega))

/-- **Every mapped path is printed once** iff all paths that occur twice are among the first 512. -/
theorem print_mem_entries_iff (lines : List Str)
    (h : ∀ l ∈ lines, newline ∉ l ∧ l.length < pathBufLen + 256) :
    let paths := lines.filterMap mapPath
    printMemEntries (some (lines.map (· ++ [newline])).flatten) = paths.eraseDups ↔
      ∀ p, 2 ≤ paths.count p → p ∈ paths.eraseDups.take maxMemPaths := by
  intro paths
  rw [printMemEntries_eq h]
  exact passed_eq_iff paths

/-- Two mappings of one file. -/
theorem print_mem_entries_iff_twice :
    let lines := [str "5000-6000 r--p 0 8:1 7 /bin/cat", str "6000-7000 r-xp 0 8:1 7 /bin/cat",
      str "7000-8000 rw-p 0 0:0 0"]
    (∀ l ∈ lines, newline ∉ l ∧ l.length < pathBufLen + 256) ∧
      printMemEntries (some (lines.map (· ++ [newline])).flatten) = [str "/bin/cat"] := by
  intro lines
  have h : ∀ l ∈ lines, newline ∉ l ∧ l.length < pathBufLen + 256 := by
    simp only [lines, List.forall_mem_cons]
    decide
  have hpaths : lines.filterMap mapPath = [str "/bin/cat", str "/bin/cat"] := by decide
  refine ⟨h, ((print_mem_entries_iff lines h).2 ?_).trans ?_⟩
  · intro p hp
    rw [hpaths] at hp ⊢
    have hmem : p ∈ [str "/bin/cat", str "/bin/cat"] := List.count_pos_iff.1 (by omega)
    obtain rfl : p = str "/bin/cat" := by simpa using hmem
    decide
  · rw [hpaths]
    decide

/-! ## More than 512 files -/

/-- The `n`th library. -/
def libraryPath (n : ℕ) : Str := byte '/' :: (str "lib" ++ decimalDigits n)

/-- A mapping of it. -/
def libraryLine (n : ℕ) : Str := str "5000-6000 r--p 0 8:1 7 " ++ libraryPath n

/-- A mapping of each one up to the `n`th, and another one of the last. -/
def libraryLines (n : ℕ) : List Str :=
  (List.range n).map libraryLine ++ [libraryLine n] ++ [libraryLine n]

theorem mapPath_append {pre path : Str} (hpre : byte '/' ∉ pre)
    (hnul : 0 ∉ pre ++ byte '/' :: path) (hend : ∀ b ∈ path, isLineEnd b = false) :
    mapPath (pre ++ byte '/' :: path) = some (byte '/' :: path) := by
  have hdrop : (pre ++ byte '/' :: path).dropWhile (· ≠ byte '/') = byte '/' :: path := by
    rw [List.dropWhile_append_of_pos, List.dropWhile_cons_of_neg (by simp)]
    intro b hb
    refine decide_eq_true ?_
    rintro rfl
    exact hpre hb
  have hkeep : (byte '/' :: path).rdropWhile isLineEnd = byte '/' :: path := by
    rw [List.rdropWhile_eq_self_iff]
    intro hne hlast
    rcases List.mem_cons.1 (List.getLast_mem hne) with h | h
    · rw [h] at hlast
      exact absurd hlast (by decide)
    · rw [hend _ h] at hlast
      cases hlast
  have hmem : byte '/' ∈ pre ++ byte '/' :: path := List.mem_append_right _ List.mem_cons_self
  rw [mapPath, strchr, cString_of_notMem hnul, if_pos hmem, hdrop]
  simp [hkeep]

theorem libraryPath_notMem {n : ℕ} {b : UInt8} (hb : b ∉ str "/lib") (hd : isDigit b = false) :
    b ∉ libraryPath n := by
  intro h
  rcases List.mem_append.1 (show b ∈ str "/lib" ++ decimalDigits n from h) with h | h
  · exact hb h
  · rw [isDigit_of_mem_decimalDigits h] at hd
    cases hd

theorem mapPath_libraryLine (n : ℕ) : mapPath (libraryLine n) = some (libraryPath n) := by
  refine mapPath_append (by decide) ?_ ?_
  · intro h
    rcases List.mem_append.1 h with h | h
    · exact absurd h (by decide)
    · exact libraryPath_notMem (by decide) (by decide) h
  · intro b hb
    by_contra hend
    rw [Bool.not_eq_false, isLineEnd, Bool.or_eq_true, beq_iff_eq, beq_iff_eq] at hend
    rcases hend with rfl | rfl
    · exact libraryPath_notMem (by decide) (by decide) (List.mem_cons_of_mem _ hb)
    · exact libraryPath_notMem (by decide) (by decide) (List.mem_cons_of_mem _ hb)

theorem libraryPath_injective : Function.Injective libraryPath := by
  intro m n h
  have hd : decimalDigits m = decimalDigits n := by simpa [libraryPath] using h
  rw [← digitsValue_decimalDigits m, hd, digitsValue_decimalDigits]

theorem filterMap_libraryLines (n : ℕ) : (libraryLines n).filterMap mapPath =
    (List.range n).map libraryPath ++ [libraryPath n] ++ [libraryPath n] := by
  simp [libraryLines, mapPath_libraryLine, List.filterMap_map]

theorem libraryPath_notMem_range (n : ℕ) : libraryPath n ∉ (List.range n).map libraryPath := by
  rw [List.mem_map_of_injective libraryPath_injective]
  simp

theorem firstDistinct_libraryLines (n : ℕ) :
    firstDistinct n ((libraryLines n).filterMap mapPath) = (List.range n).map libraryPath := by
  have hnodup : ((List.range n).map libraryPath).Nodup :=
    List.Nodup.map libraryPath_injective List.nodup_range
  rw [filterMap_libraryLines, firstDistinct,
    eraseDups_concat_of_mem (List.mem_append_right _ (List.mem_singleton_self _)),
    eraseDups_concat_of_notMem (libraryPath_notMem_range n), eraseDups_of_nodup hnodup,
    List.take_left' (by simp)]

theorem libraryLine_fits {n : ℕ} (hn : n < 10 ^ 3) :
    newline ∉ libraryLine n ∧ (libraryLine n).length < pathBufLen + 256 := by
  constructor
  · intro h
    rcases List.mem_append.1 h with h | h
    · exact absurd h (by decide)
    · exact libraryPath_notMem (by decide) (by decide) h
  · have hdigits := length_decimalDigits_le (k := 3) (by decide) hn
    rw [libraryLine, libraryPath, List.length_append, List.length_cons, List.length_append]
    have hpre : (str "5000-6000 r--p 0 8:1 7 ").length = 23 := by decide
    have hlib : (str "lib").length = 3 := by decide
    have hsize : pathBufLen + 256 = 4352 := by decide
    omega

theorem libraryLines_fit :
    ∀ l ∈ libraryLines maxMemPaths, newline ∉ l ∧ l.length < pathBufLen + 256 := by
  have hmax : maxMemPaths < 10 ^ 3 := by decide
  intro l hl
  rw [libraryLines, List.mem_append, List.mem_append, List.mem_singleton, List.mem_map] at hl
  rcases hl with (⟨n, hn, rfl⟩ | rfl) | rfl
  · exact libraryLine_fits (Nat.lt_trans (List.mem_range.1 hn) hmax)
  · exact libraryLine_fits hmax
  · exact libraryLine_fits hmax

/-- With 513 files, the last of which is mapped twice, the last one is printed
    twice. -/
theorem print_mem_entries_repeats :
    let lines := libraryLines maxMemPaths
    let printed := printMemEntries (some (lines.map (· ++ [newline])).flatten)
    (∀ l ∈ lines, newline ∉ l ∧ l.length < pathBufLen + 256) ∧
      printed.count (str "/lib512") = 2 ∧ printed ≠ (lines.filterMap mapPath).eraseDups := by
  intro lines printed
  have hfit := libraryLines_fit
  have hcount : printed.count (str "/lib512") = 2 := by
    have hpath : str "/lib512" = libraryPath maxMemPaths := by decide
    rw [hpath]
    simp only [printed, lines]
    rw [printMemEntries_eq hfit, count_passed, firstDistinct_libraryLines,
      if_neg (libraryPath_notMem_range maxMemPaths), filterMap_libraryLines]
    simp [List.count_eq_zero_of_not_mem (libraryPath_notMem_range maxMemPaths)]
  refine ⟨hfit, hcount, ?_⟩
  intro heq
  have hone := List.nodup_iff_count_le_one.1 (nodup_eraseDups (lines.filterMap mapPath))
    (str "/lib512")
  rw [← heq, hcount] at hone
  omega

end CShell
