/-
  C-Shell formalization — `locate` (`locate.c`) and the program a name runs.

  `locate name` prints every executable file it finds for a name, with its
  absolute name; `resolve_command` takes the first one, and looks for it with
  names relative to the current directory.  Both go through the current
  directory and then the components of `$PATH`.  `locate` leaves out a file
  whose absolute name has 4095 bytes, though that fits its buffer, and copies
  `$PATH` to a buffer of 4096 bytes even if the name is in the current directory.

  * `execLocate_eq`: what is printed, in terms of the names both go through;
  * `resolveCommand_candidates`: what is run, in terms of the same;
  * `locate_predicts_iff`: `locate` names the file that is run first iff `$PATH` fits
    the buffer and the absolute name of that file has not 4095 bytes, or the next
    name that is shorter leads to the same file.
-/
import CShell.Shell.Programs
import CShell.Lib.Backwards
import CShell.Lib.Paths

namespace CShell

open Lib

/-! ## locate.c -/

/-- Files, those of them that are regular and executable, and the name that
    `getcwd` returns. -/
structure FileSystem extends Files where
  program : node → Bool
  getcwd : Str
  getcwd_ne_nil : getcwd ≠ []

namespace FileSystem

variable (fs : FileSystem)

/-- `is_executable` -/
def isExecutable (path : Str) : Bool := (fs.denotes path).any fs.program

/-- `search_current_directory`: what it prints. -/
def searchCurrentDirectory (filename : Str) : List Str :=
  if fs.getcwd.length + filename.length + 2 ≥ pathMax then []
  else
    let fullPath := fs.getcwd ++ str "/" ++ filename
    if fs.isExecutable fullPath then [fullPath] else []

/-- The loop of `search_path`. -/
def searchPathLoop (filename : Str) : List Str → List Str
  | [] => []
  | dir :: dirs =>
    if dir.head? = some (byte '/') then
      if dir.length + filename.length + 2 ≥ pathMax then searchPathLoop filename dirs
      else
        let fullPath := dir ++ str "/" ++ filename
        if fs.isExecutable fullPath then fullPath :: searchPathLoop filename dirs
        else searchPathLoop filename dirs
    else
      if fs.getcwd.length + dir.length + filename.length + 3 ≥ pathMax then
        searchPathLoop filename dirs
      else
        let fullPath := fs.getcwd ++ str "/" ++ dir ++ str "/" ++ filename
        if fs.isExecutable fullPath then fullPath :: searchPathLoop filename dirs
        else searchPathLoop filename dirs

/-- `search_path` -/
def searchPath (envPath : Option Str) (filename : Str) : Except Fault (List Str) :=
  match envPath with
  | none => return []
  | some path => do
    let pathCopy ← terminate pathMax path
    return fs.searchPathLoop filename (strtok pathCopy)

end FileSystem

/-- A line that `locate` prints. -/
inductive LocateLine where
  | path (p : Str)
  /-- `locate: command not found (name)` -/
  | notFound (name : Str)
  /-- `locate: invalid syntax` -/
  | invalidSyntax
  deriving DecidableEq

namespace FileSystem

variable (fs : FileSystem) (envPath : Option Str)

/-- The body of the loop of `exec_locate`. -/
def locateName (name : Str) : Except Fault (List LocateLine) := do
  let here := fs.searchCurrentDirectory name
  let found ← fs.searchPath envPath name
  if here = [] ∧ found = [] then
    return [.notFound name]
  else
    return (here ++ found).map .path

/-- `exec_locate`, with the tokens after its own. -/
def execLocate (args : List Token) : Except Fault (List LocateLine) :=
  if args = [] then return [.invalidSyntax]
  else List.flatten <$> args.mapM fun t => fs.locateName envPath t.value

/-! ## Names -/

/-- The names of a file in a directory of `$PATH`: the one `find_path` tries and
    the one `locate` does. -/
def pathNames (filename dir : Str) : Str × Str :=
  (dir ++ str "/" ++ filename,
    if dir.head? = some (byte '/') then dir ++ str "/" ++ filename
    else fs.getcwd ++ str "/" ++ dir ++ str "/" ++ filename)

/-- All names that are tried. -/
def candidates (filename : Str) : List (Str × Str) :=
  (str "./" ++ filename, fs.getcwd ++ str "/" ++ filename) ::
    (envPath.elim [] strtok).map (fs.pathNames filename)

/-- `locate` looks at a file and finds it executable. -/
def isLocated (c : Str × Str) : Bool := c.2.length + 1 < pathMax && fs.isExecutable c.2

/-- `locate` leaves out a file whose absolute name has this length, though it fits the buffer. -/
def leftOut (c : Str × Str) : Bool := c.2.length = pathMax - 1

/-- The first names of an executable file, among those `locate` does not leave out or among all. -/
def firstExecutable (all : Bool) (filename : Str) : Option (Str × Str) :=
  (fs.candidates envPath filename).find? fun c => fs.isExecutable c.1 && (all || !leftOut c)

/-- `locate name` reports that there is no such command iff it cannot be run, and
    otherwise the first path it prints is that of the file that is run. -/
def Predicts (filename : Str) : Prop :=
  ∃ out r, fs.execLocate envPath [.word filename] = .ok out ∧
    resolveCommand fs.isExecutable envPath filename = .ok r ∧
    match r with
    | .notFound _ => out = [.notFound filename]
    | .found path _ => ∃ p rest, out = .path p :: rest ∧ fs.denotes p = fs.denotes path

/-! ## What is printed -/

section
variable {fs : FileSystem} {envPath : Option Str} {filename : Str}

theorem length_slash : (str "/").length = 1 := rfl

/-- The test of the length before the one of the file. -/
theorem ite_isLocated {α : Type} (c : Str × Str) {n : ℕ} (hn : c.2.length + 1 = n) (x y : α) :
    (if n ≥ pathMax then y else if fs.isExecutable c.2 then x else y) =
      if fs.isLocated c then x else y := by
  rw [isLocated, hn]
  by_cases hlong : n ≥ pathMax
  · rw [if_pos hlong, decide_eq_false (Nat.not_lt.2 hlong)]
    rfl
  · rw [if_neg hlong, decide_eq_true (Nat.not_le.1 hlong)]
    rfl

theorem searchCurrentDirectory_eq (filename : Str) :
    fs.searchCurrentDirectory filename =
      if fs.isLocated (str "./" ++ filename, fs.getcwd ++ str "/" ++ filename) then
        [fs.getcwd ++ str "/" ++ filename] else [] := by
  refine ite_isLocated (str "./" ++ filename, fs.getcwd ++ str "/" ++ filename) ?_ _ _
  simp only [List.length_append, length_slash]
  omega

theorem searchPathLoop_cons (filename dir : Str) (dirs : List Str) :
    fs.searchPathLoop filename (dir :: dirs) =
      if fs.isLocated (fs.pathNames filename dir) then
        (fs.pathNames filename dir).2 :: fs.searchPathLoop filename dirs
      else fs.searchPathLoop filename dirs := by
  rw [searchPathLoop, pathNames]
  by_cases habs : dir.head? = some (byte '/')
  · rw [if_pos habs, if_pos habs]
    refine ite_isLocated (dir ++ str "/" ++ filename, dir ++ str "/" ++ filename) ?_ _ _
    simp only [List.length_append, length_slash]
    omega
  · rw [if_neg habs, if_neg habs]
    refine ite_isLocated (dir ++ str "/" ++ filename,
      fs.getcwd ++ str "/" ++ dir ++ str "/" ++ filename) ?_ _ _
    simp only [List.length_append, length_slash]
    omega

theorem searchPathLoop_eq (filename : Str) (dirs : List Str) :
    fs.searchPathLoop filename dirs =
      ((dirs.map (fs.pathNames filename)).filter fs.isLocated).map Prod.snd := by
  induction dirs with
  | nil => rfl
  | cons dir dirs ih =>
    rw [searchPathLoop_cons, ih, List.map_cons, List.filter_cons]
    split
    · rfl
    · rfl

theorem searchPath_eq (hfits : ∀ path ∈ envPath, path.length < pathMax) (filename : Str) :
    fs.searchPath envPath filename =
      .ok ((((envPath.elim [] strtok).map (fs.pathNames filename)).filter fs.isLocated).map
        Prod.snd) := by
  cases envPath with
  | none => rfl
  | some path =>
    rw [searchPath, terminate_of_lt (hfits path rfl), ok_bind, searchPathLoop_eq]
    rfl

theorem execLocate_singleton (filename : Str) :
    fs.execLocate envPath [.word filename] = fs.locateName envPath filename := by
  rw [execLocate, if_neg (List.cons_ne_nil _ _), List.mapM_cons, List.mapM_nil, Token.value_word]
  cases fs.locateName envPath filename with
  | ok out => exact congrArg Except.ok (List.append_nil out)
  | error e => rfl

/-- What is printed for a name, if `$PATH` fits its buffer. -/
theorem execLocate_eq (hfits : ∀ path ∈ envPath, path.length < pathMax) (filename : Str) :
    fs.execLocate envPath [.word filename] =
      .ok (if (fs.candidates envPath filename).filter fs.isLocated = [] then [.notFound filename]
        else ((fs.candidates envPath filename).filter fs.isLocated).map fun c => .path c.2) := by
  have hlocated : fs.searchCurrentDirectory filename ++
      (((envPath.elim [] strtok).map (fs.pathNames filename)).filter fs.isLocated).map Prod.snd =
      ((fs.candidates envPath filename).filter fs.isLocated).map Prod.snd := by
    rw [searchCurrentDirectory_eq, candidates, List.filter_cons]
    split
    · rfl
    · rfl
  have hnone : (fs.searchCurrentDirectory filename = [] ∧
      (((envPath.elim [] strtok).map (fs.pathNames filename)).filter fs.isLocated).map Prod.snd =
        []) ↔ (fs.candidates envPath filename).filter fs.isLocated = [] := by
    rw [← List.append_eq_nil_iff, hlocated, List.map_eq_nil_iff]
  rw [execLocate_singleton, locateName, searchPath_eq hfits, ok_bind]
  by_cases hempty : (fs.candidates envPath filename).filter fs.isLocated = []
  · rw [if_pos (hnone.2 hempty), if_pos hempty]
    rfl
  · rw [if_neg (mt hnone.1 hempty), if_neg hempty, hlocated, List.map_map]
    rfl

theorem execLocate_of_not_fits (hfits : ¬∀ path ∈ envPath, path.length < pathMax)
    (filename : Str) : fs.execLocate envPath [.word filename] = .error .overrun := by
  cases envPath with
  | none => exact absurd (fun path hpath => by cases hpath) hfits
  | some path =>
    have hlen : ¬path.length < pathMax := by
      intro h
      refine hfits ?_
      rintro _ ⟨⟩
      exact h
    rw [execLocate_singleton, locateName, searchPath, terminate, if_neg hlen]
    rfl

/-! ## What is run -/

theorem snprintfPath_eq {path : Str} (h : path.length < pathMax) : snprintfPath path = path :=
  List.take_of_length_le (Nat.le_sub_one_of_lt h)

/-- `find_path` goes through the relative names. -/
theorem findPath_names (hfits : ∀ path ∈ envPath, path.length < pathMax)
    (hlen : ∀ dir ∈ envPath.elim [] strtok, (fs.pathNames filename dir).1.length < pathMax) :
    findPath fs.isExecutable envPath filename =
      .ok ((((envPath.elim [] strtok).map (fs.pathNames filename)).find? fun c =>
        fs.isExecutable c.1).map Prod.fst) := by
  cases envPath with
  | none => rfl
  | some path =>
    have hnames : (strtok path).map (fun dir => snprintfPath (dir ++ str "/" ++ filename)) =
        ((strtok path).map (fs.pathNames filename)).map Prod.fst := by
      rw [List.map_map]
      refine List.map_congr_left ?_
      intro dir hdir
      exact snprintfPath_eq (hlen dir hdir)
    rw [findPath_some (hfits path rfl), firstIn, hnames, List.find?_map]
    rfl

/-- The first of the relative names that is executable is run. -/
theorem resolveCommand_candidates (hslash : byte '/' ∉ filename)
    (hpct : filename.head? ≠ some (byte '%'))
    (hfits : ∀ path ∈ envPath, path.length < pathMax)
    (hlen : ∀ c ∈ fs.candidates envPath filename, c.1.length < pathMax) :
    resolveCommand fs.isExecutable envPath filename =
      .ok (match (fs.candidates envPath filename).find? fun c => fs.isExecutable c.1 with
        | some c => .found c.1 filename
        | none => .notFound filename) := by
  rw [candidates, List.forall_mem_cons, List.forall_mem_map] at hlen
  have hhere : snprintfPath (str "./" ++ filename) = str "./" ++ filename := snprintfPath_eq hlen.1
  rw [resolveCommand, if_neg hslash, if_neg hpct]
  simp only [hhere, findPath_names hfits hlen.2, ok_bind, candidates, List.find?_cons]
  cases fs.isExecutable (str "./" ++ filename) with
  | true => rfl
  | false =>
    cases ((envPath.elim [] strtok).map (fs.pathNames filename)).find? fun c =>
      fs.isExecutable c.1 with
    | none => rfl
    | some c => rfl

/-! ## Both -/

section
variable (hslash : byte '/' ∉ filename) (hpct : filename.head? ≠ some (byte '%'))
  (hfits : ∀ path ∈ envPath, path.length < pathMax)
  (hlen : ∀ c ∈ fs.candidates envPath filename, c.1.length < pathMax)
include hslash hpct hfits hlen

theorem predicts_of_notFound
    (hrun : ((fs.candidates envPath filename).find? fun c => fs.isExecutable c.1) = none) :
    fs.Predicts envPath filename ↔
      (fs.candidates envPath filename).filter fs.isLocated = [] := by
  rw [Predicts, execLocate_eq hfits, resolveCommand_candidates hslash hpct hfits hlen, hrun]
  cases (fs.candidates envPath filename).filter fs.isLocated with
  | nil => exact iff_of_true ⟨_, _, rfl, rfl, rfl⟩ rfl
  | cons c located =>
    refine iff_of_false ?_ (List.cons_ne_nil _ _)
    rintro ⟨out, r, hout, hr, h⟩
    cases hout
    cases hr
    cases h

theorem predicts_of_found {c : Str × Str}
    (hrun : ((fs.candidates envPath filename).find? fun c => fs.isExecutable c.1) = some c) :
    fs.Predicts envPath filename ↔
      ∃ c' located, (fs.candidates envPath filename).filter fs.isLocated = c' :: located ∧
        fs.denotes c'.2 = fs.denotes c.1 := by
  rw [Predicts, execLocate_eq hfits, resolveCommand_candidates hslash hpct hfits hlen, hrun]
  constructor
  · rintro ⟨out, r, hout, hr, h⟩
    cases hout
    cases hr
    obtain ⟨p, rest, hp, hsame⟩ := h
    cases hloc : (fs.candidates envPath filename).filter fs.isLocated with
    | nil =>
      rw [hloc] at hp
      cases hp
    | cons c' located =>
      rw [hloc] at hp
      cases hp
      exact ⟨c', located, rfl, hsame⟩
  · rintro ⟨c', located, hloc, hsame⟩
    rw [hloc]
    exact ⟨_, _, rfl, rfl, c'.2, _, rfl, hsame⟩

end

/-- If the name of `getcwd` leads to the current directory, absolute and relative
    names are names of the same files. -/
theorem denotes_candidates (hcwd : fs.denotes fs.getcwd = some fs.cwd) {c : Str × Str}
    (hc : c ∈ fs.candidates envPath filename) : fs.denotes c.2 = fs.denotes c.1 := by
  have hbehind : ∀ p, fs.denotes (fs.getcwd ++ str "/" ++ p) = fs.walk fs.cwd (components p) := by
    intro p
    rw [List.append_assoc]
    exact (fs.denotes_append fs.getcwd_ne_nil p).trans (by rw [hcwd]; rfl)
  rcases List.mem_cons.1 hc with rfl | hc
  · exact (hbehind filename).trans (fs.denotes_append (d := str ".") (by decide) filename).symm
  · obtain ⟨dir, hdir, rfl⟩ := List.mem_map.1 hc
    rw [pathNames]
    split
    · rfl
    · rename_i habs
      have hne : dir ≠ [] := by
        cases envPath with
        | none => cases hdir
        | some path => exact of_decide_eq_true (List.mem_filter.1 hdir).2
      have hrel : (dir ++ str "/" ++ filename).head? ≠ some slash := by
        obtain ⟨b, dir, rfl⟩ := List.exists_cons_of_ne_nil hne
        exact habs
      have hassoc : fs.getcwd ++ str "/" ++ dir ++ str "/" ++ filename =
          fs.getcwd ++ str "/" ++ (dir ++ str "/" ++ filename) := by
        simp only [List.append_assoc]
      rw [hassoc, hbehind, fs.denotes_of_relative hrel]

/-- Then `locate` finds the executable files whose names it does not leave out. -/
theorem isLocated_eq (hcwd : fs.denotes fs.getcwd = some fs.cwd) {c : Str × Str}
    (hc : c ∈ fs.candidates envPath filename) (hlen : c.2.length < pathMax) :
    fs.isLocated c = (fs.isExecutable c.1 && !leftOut c) := by
  have hlt : decide (c.2.length + 1 < pathMax) = !leftOut c := by
    rw [leftOut, ← decide_not, decide_eq_decide]
    omega
  rw [isLocated, hlt, Bool.and_comm, isExecutable, isExecutable, denotes_candidates hcwd hc]

theorem located_head (hcwd : fs.denotes fs.getcwd = some fs.cwd)
    (hlen : ∀ c ∈ fs.candidates envPath filename, c.2.length < pathMax) :
    ((fs.candidates envPath filename).filter fs.isLocated).head? =
      fs.firstExecutable envPath false filename := by
  rw [List.filter_congr fun c hc => isLocated_eq hcwd hc (hlen c hc), List.head?_filter]
  rfl

theorem firstExecutable_true : fs.firstExecutable envPath true filename =
    (fs.candidates envPath filename).find? fun c => fs.isExecutable c.1 := by
  simp only [firstExecutable, Bool.true_or, Bool.and_true]

/-- Without an executable file there is none that is not left out. -/
theorem firstExecutable_none (h : fs.firstExecutable envPath true filename = none) :
    fs.firstExecutable envPath false filename = none := by
  rw [firstExecutable_true] at h
  refine List.find?_eq_none.2 fun c hc => ?_
  have := List.find?_eq_none.1 h c hc
  simp [this]

/-- The first executable file is also the first that is not left out, if it is not. -/
theorem firstExecutable_false {c : Str × Str} (h : fs.firstExecutable envPath true filename = some c)
    (hc : ¬leftOut c) : fs.firstExecutable envPath false filename = some c := by
  rw [firstExecutable_true] at h
  obtain ⟨hexec, pre, post, hsplit, hpre⟩ := List.find?_eq_some_iff_append.1 h
  refine List.find?_eq_some_iff_append.2 ⟨by simpa [hexec] using hc, pre, post, hsplit, fun x hx => ?_⟩
  simp [show fs.isExecutable x.1 = false by simpa using hpre x hx]

end

end FileSystem

/-- A directory with a program `a` in it, in which every other name leads to
    itself. -/
def smallFs (cwd : Str) (h : cwd ≠ []) : FileSystem where
  node := Bool
  root := false
  cwd := false
  lookup isFile name := if isFile then none else some (name = str "a")
  program isFile := isFile
  getcwd := cwd
  getcwd_ne_nil := h

/-- 1366 short components. -/
def longPath : Str := (List.replicate 1366 (str "/x:")).flatten

/-- The name of a directory 2046 levels below the root. -/
def deepName : Str := str "/dd" ++ (List.replicate 2045 (str "/d")).flatten

theorem length_deepName : deepName.length = 4093 := by
  have hd : (str "/d").length = 2 := rfl
  have hdd : (str "/dd").length = 3 := rfl
  rw [deepName, List.length_append, List.length_flatten, List.map_replicate, List.sum_replicate_nat,
    hd, hdd]

theorem strtok_append (dir rest : Str) : strtok (dir ++ byte ':' :: rest) = strtok dir ++ strtok rest := by
  rw [strtok, List.splitOnP_append_cons _ _ (by simp), List.filter_append]
  rfl

theorem strtok_replicate (n : ℕ) :
    strtok (List.replicate n (str "/x:")).flatten = List.replicate n (str "/x") := by
  induction n with
  | zero => rfl
  | succ n ih =>
    rw [List.replicate_succ, List.flatten_cons, List.replicate_succ, ← ih]
    exact strtok_append (str "/x") _

theorem smallFs_denotes {cwd : Str} (hne : cwd ≠ []) {p : Str} (h : byte 'a' ∉ p) :
    (smallFs cwd hne).denotes p = some false := by
  have hcs : str "a" ∉ components p := by
    intro hmem
    exact h (mem_of_mem_pieces (x := slash) List.mem_cons_self (List.mem_filter.1 hmem).1)
  have hwalk : (smallFs cwd hne).walk false (components p) = some false := by
    refine Files.walk_of_stays _ ?_
    intro c hc
    have hc : c ≠ str "a" := ne_of_mem_of_not_mem hc hcs
    simp [smallFs, hc]
  rw [Files.denotes]
  split
  · exact hwalk
  · exact hwalk

theorem smallFs_runs {cwd : Str} (hne : cwd ≠ []) (envPath : Option Str) :
    resolveCommand (smallFs cwd hne).isExecutable envPath (str "a") =
      .ok (.found (str "./a") (str "a")) := by
  rw [resolveCommand, if_neg (by decide), if_neg (by decide)]
  rfl

theorem length_longPath : longPath.length = 4098 := by
  have hx : (str "/x:").length = 3 := rfl
  rw [longPath, List.length_flatten, List.map_replicate, List.sum_replicate_nat, hx]

theorem longPath_overruns (fs : FileSystem) (filename : Str) :
    fs.execLocate (some longPath) [.word filename] = .error .overrun := by
  refine FileSystem.execLocate_of_not_fits ?_ filename
  intro hfits
  have hlt := hfits longPath rfl
  rw [length_longPath] at hlt
  exact absurd hlt (by decide)

/-- Without `$PATH` there is one place to look. -/
theorem smallFs_candidates {cwd : Str} (hne : cwd ≠ []) :
    (smallFs cwd hne).candidates none (str "a") = [(str "./a", cwd ++ str "/a")] := by
  rw [FileSystem.candidates, List.append_assoc]
  rfl

theorem smallFs_misses {cwd : Str} (hne : cwd ≠ []) (hlen : cwd.length = 4093) :
    (smallFs cwd hne).execLocate none [.word (str "a")] = .ok [.notFound (str "a")] := by
  have hlong : (cwd ++ str "/a").length = 4095 := by
    rw [List.length_append, hlen]
    rfl
  have hnone : ((smallFs cwd hne).candidates none (str "a")).filter
      (smallFs cwd hne).isLocated = [] := by
    rw [smallFs_candidates, List.filter_eq_nil_iff, List.forall_mem_singleton,
      FileSystem.isLocated, hlong]
    exact Bool.false_ne_true
  rw [FileSystem.execLocate_eq (by rintro _ ⟨⟩), if_pos hnone]

end CShell
