/-
  C-Shell formalization — sessions of `hop` (`exec_hop`).

  The code keeps a table of at most 1000 directories with their frequencies and the time
  of the last visit, and computes a score from them.  Abstractly there is only the list
  of the directories visited: `hop name` enters `name`, or else the best of the visited
  directories that contain it.

  * `History.hop`: what an argument of `hop` should do;
  * `hop_session`: in a shell started where there is no `hop.log`, any commands, with any
    changes of the files between them, do that, up to about 2 ^ 53 arguments.
-/
import CShell.Shell.Hop
import CShell.Shell.Visits

namespace CShell

open Lib

/-! ## exec_hop -/

/-- The files, as far as `hop` sees them. -/
structure HopFiles where
  /-- where `chdir` leads from a directory, under the name `getcwd` gives it -/
  chdir : Str → Str → Option Str
  /-- `access` succeeds -/
  present : Str → Bool

/-- The message of `exec_hop`. -/
def noSuchDirectory : Str := str "hop: no such directory\n"

/-- `change_dir` for a path. -/
def HopState.changeTo (fs : HopFiles) (path : Str) (s : HopState) : Option (HopState × Bool) :=
  s.changeDir (fs.chdir s.cwd path)

/-- The body of the loop of `exec_hop`: the state, and what is printed. -/
def HopState.hopArg (fs : HopFiles) (home arg : Str) (s : HopState) :
    Option (HopState × List Str) :=
  if arg = str "~" then (s.changeTo fs home).map fun r => (r.1, [])
  else if arg = str "." then some (s, [])
  else if arg = str ".." then (s.changeTo fs (str "..")).map fun r => (r.1, [])
  else if arg = str "-" then
    match s.prevDir with
    | some prev => (s.changeTo fs prev).map fun r => (r.1, [])
    | none => some (s, [])
  else do
    let r ← s.changeTo fs arg
    if r.2 then pure (r.1, [])
    else
      match ← r.1.frecency.findFrecencyMatch fs.present arg with
      | some result =>
        let r ← r.1.changeTo fs result
        pure (r.1, if r.2 then [] else [noSuchDirectory])
      | none => pure (r.1, [noSuchDirectory])

/-- The loop. -/
def HopState.hopArgs (fs : HopFiles) (home : Str) : List Str → HopState × List Str →
    Option (HopState × List Str)
  | [], r => some r
  | arg :: args, r => do
    let r' ← r.1.hopArg fs home arg
    hopArgs fs home args (r'.1, r.2 ++ r'.2)

/-- `exec_hop`: without arguments to the home directory, else one argument after the other. -/
def HopState.execHop (fs : HopFiles) (home : Str) (args : List Str) (r : HopState × List Str) :
    Option (HopState × List Str) :=
  match args with
  | [] => (r.1.changeTo fs home).map fun r' => (r'.1, r.2)
  | arg :: args => HopState.hopArgs fs home (arg :: args) r

/-- Commands `hop`, each with the files as they are then. -/
def HopState.session (home : Str) : List (HopFiles × List Str) → HopState × List Str →
    Option (HopState × List Str)
  | [], r => some r
  | (fs, args) :: cmds, r => do session home cmds (← HopState.execHop fs home args r)

/-! ## The history -/

/-- The directories visited, in order, as far as they have names; and what was printed. -/
structure History where
  cwd : Str
  prev : Option Str
  visits : List Str
  printed : List Str

/-- The best of the visited directories. -/
noncomputable def bestMatch (present : Str → Bool) (name : Str) (visits : List Str) : Option Str :=
  open Classical in
  if h : ∃ p, IsBest present name visits p then some h.choose else none

namespace History

/-- Nothing has been visited. -/
def start (home : Str) : History := ⟨home, none, [], []⟩

/-- The directory is entered, and recorded if its name is short enough. -/
def enter (d : Str) (h : History) : History :=
  { h with
    cwd := d
    prev := some h.cwd
    visits := if d.length < pathMax then h.visits ++ [d] else h.visits }

/-- A change of directory; none is possible from a directory whose name is too long. -/
def go (fs : HopFiles) (path : Str) (h : History) : Option History :=
  if h.cwd.length < pathMax then (fs.chdir h.cwd path).map (enter · h) else none

/-- An argument of `hop`. -/
noncomputable def hop (fs : HopFiles) (home : Str) (h : History) (arg : Str) : History :=
  if arg = str "~" then (h.go fs home).getD h
  else if arg = str "." then h
  else if arg = str ".." then (h.go fs (str "..")).getD h
  else if arg = str "-" then (h.prev.bind (h.go fs)).getD h
  else ((h.go fs arg).or ((bestMatch fs.present arg h.visits).bind (h.go fs))).getD
    { h with printed := h.printed ++ [noSuchDirectory] }

/-- A command; `hop` alone is `hop ~`. -/
noncomputable def command (home : Str) (h : History) (cmd : HopFiles × List Str) : History :=
  match cmd.2 with
  | [] => h.hop cmd.1 home (str "~")
  | args => args.foldl (hop cmd.1 home) h

end History

/-! ## The table shows the history -/

/-- The shell is where the history says, and the table is that of the visits. -/
structure HopState.Shows (h : History) (s : HopState) : Prop where
  cwd : s.cwd = h.cwd
  prev : s.prevDir = h.prev
  table : s.frecency = tableOf h.visits

/-- There is room for one more visit in the counters and the scores. -/
def History.Small (h : History) : Prop := 1001 * ((h.visits.length : ℤ) + 1) ≤ llongMax

section
variable {fs : HopFiles} {home arg path : Str} {h : History} {s : HopState}

theorem visitScore_le (visits : List Str) (p : Str) : visitScore visits p ≤ 1001 * visits.length := by
  have hcount := List.count_le_length (a := p) (l := visits)
  have hlast : lastIndex p visits ≤ visits.length := Nat.sub_le _ _
  rw [visitScore]
  omega

theorem findFrecencyMatch_tableOf (present : Str → Bool) (arg : Str) (visits : List Str)
    (hsmall : 1001 * (visits.length : ℤ) ≤ llongMax) :
    (tableOf visits).findFrecencyMatch present arg = some (bestMatch present arg visits) := by
  have hs : ∀ e ∈ (tableOf visits).entries, Matches present arg e.path →
      e.score = some e.value := by
    rw [tableOf, List.forall_mem_map]
    intro p _ _
    have hle := visitScore_le visits p
    exact score_entryOf (by omega)
  rw [Frecency.findFrecencyMatch_eq hs, matching_tableOf, Option.some.injEq, bestMatch]
  rcases hmax : ((candidates present arg visits).map (entryOf visits)).argmax FrecencyEntry.value
    with _ | e
  · rw [dif_neg]
    · rfl
    · rintro ⟨p, hp⟩
      rw [List.argmax_eq_none, List.map_eq_nil_iff] at hmax
      have hmem := hp.mem
      rw [hmax] at hmem
      cases hmem
  · have hbest := isBest_of_argmax hmax
    rw [dif_pos ⟨e.path, hbest⟩]
    exact congrArg some (hbest.unique (Exists.choose_spec ⟨e.path, hbest⟩))

namespace HopState.Shows

theorem changeTo (hs : s.Shows h) (hsmall : h.Small) (fs : HopFiles) (path : Str) :
    ∃ s', s.changeTo fs path = some (s', (h.go fs path).isSome) ∧
      s'.Shows ((h.go fs path).getD h) := by
  have hgetcwd : s.getcwd = if h.cwd.length < pathMax then some h.cwd else none := by
    rw [getcwd, hs.cwd]
  rw [HopState.changeTo, changeDir.eq_def, hgetcwd, hs.cwd, History.go]
  by_cases hlen : h.cwd.length < pathMax
  · rw [if_pos hlen, if_pos hlen]
    rcases hd : fs.chdir h.cwd path with _ | d
    · exact ⟨s, rfl, hs⟩
    · simp only [Option.map_some, Option.isSome_some, Option.getD_some, getcwd]
      by_cases hdlen : d.length < pathMax
      · have hroom : ((h.visits ++ [d]).length : ℤ) ≤ llongMax := by
          have := hsmall
          rw [History.Small] at this
          rw [List.length_append, List.length_singleton]
          omega
        obtain ⟨saved, hrec⟩ := recordVisit_tableOf hroom
        rw [if_pos hdlen]
        simp only [HopState.recordVisit, hs.table, hrec, Option.map_some]
        refine ⟨_, rfl, rfl, rfl, ?_⟩
        rw [History.enter, if_pos hdlen]
      · rw [if_neg hdlen]
        refine ⟨_, rfl, rfl, rfl, ?_⟩
        rw [History.enter, if_neg hdlen]
        exact hs.table
  · rw [if_neg hlen, if_neg hlen]
    exact ⟨s, rfl, hs⟩

/-- A hop that prints nothing. -/
theorem quietly (hs : s.Shows h) (hsmall : h.Small) (fs : HopFiles) (path : Str) :
    ∃ s', ((s.changeTo fs path).map fun r => (r.1, ([] : List Str))) = some (s', []) ∧
      s'.Shows ((h.go fs path).getD h) := by
  obtain ⟨s', hs', hshows⟩ := hs.changeTo hsmall fs path
  exact ⟨s', by rw [hs']; rfl, hshows⟩

end HopState.Shows

theorem History.go_printed {h' : History} (hgo : h.go fs path = some h') :
    h'.printed = h.printed ∧ h'.visits.length ≤ h.visits.length + 1 := by
  rw [go, Option.ite_none_right_eq_some] at hgo
  obtain ⟨d, -, rfl⟩ := Option.map_eq_some_iff.1 hgo.2
  refine ⟨rfl, ?_⟩
  rw [enter]
  split
  · rw [List.length_append, List.length_singleton]
  · exact Nat.le_succ _

theorem History.getD_go_printed (fs : HopFiles) (path : Str) (h : History) :
    ((h.go fs path).getD h).printed = h.printed ∧
      ((h.go fs path).getD h).visits.length ≤ h.visits.length + 1 := by
  rcases hgo : h.go fs path with _ | h'
  · exact ⟨rfl, Nat.le_succ _⟩
  · exact go_printed hgo

/-- **An argument.** -/
theorem HopState.Shows.hopArg (hs : s.Shows h) (hsmall : h.Small) (fs : HopFiles)
    (home arg : Str) :
    ∃ s' out, s.hopArg fs home arg = some (s', out) ∧ s'.Shows (h.hop fs home arg) ∧
      (h.hop fs home arg).printed = h.printed ++ out ∧
      (h.hop fs home arg).visits.length ≤ h.visits.length + 1 := by
  -- the arguments that only change the directory
  have hquiet : ∀ path, ∃ s' out,
      ((s.changeTo fs path).map fun r => (r.1, ([] : List Str))) = some (s', out) ∧
        s'.Shows ((h.go fs path).getD h) ∧ ((h.go fs path).getD h).printed = h.printed ++ out ∧
        ((h.go fs path).getD h).visits.length ≤ h.visits.length + 1 := by
    intro path
    obtain ⟨s', hs', hshows⟩ := hs.quietly hsmall fs path
    obtain ⟨hprinted, hlen⟩ := History.getD_go_printed fs path h
    exact ⟨s', [], hs', hshows, by rw [hprinted, List.append_nil], hlen⟩
  have hstay : ∃ s' out, some (s, ([] : List Str)) = some (s', out) ∧ s'.Shows h ∧
      h.printed = h.printed ++ out ∧ h.visits.length ≤ h.visits.length + 1 :=
    ⟨s, [], rfl, hs, (List.append_nil _).symm, Nat.le_succ _⟩
  rw [HopState.hopArg, History.hop]
  split
  case isTrue => exact hquiet home
  split
  case isTrue => exact hstay
  split
  case isTrue => exact hquiet _
  split
  case isTrue =>
    rw [hs.prev]
    rcases h.prev with _ | prev
    · exact hstay
    · exact hquiet prev
  obtain ⟨s₁, hs₁, hshows₁⟩ := hs.changeTo hsmall fs arg
  rw [hs₁]
  rcases hgo : h.go fs arg with _ | h'
  · rw [hgo] at hshows₁
    have hshows₁ : s₁.Shows h := hshows₁
    have hfind := findFrecencyMatch_tableOf fs.present arg h.visits (by
      have := hsmall
      rw [History.Small] at this
      omega)
    simp only [Option.bind_eq_bind, Option.bind_some, hshows₁.table, hfind, Option.isSome_none,
      Bool.false_eq_true, if_false, Option.none_or]
    rcases bestMatch fs.present arg h.visits with _ | result
    · exact ⟨s₁, _, rfl, ⟨hshows₁.cwd, hshows₁.prev, hshows₁.table⟩, rfl, Nat.le_succ _⟩
    · obtain ⟨s₂, hs₂, hshows₂⟩ := hshows₁.changeTo hsmall fs result
      simp only [hs₂, Option.bind_some]
      rcases hgo₂ : h.go fs result with _ | h'
      · rw [hgo₂] at hshows₂
        exact ⟨s₂, _, rfl, ⟨hshows₂.cwd, hshows₂.prev, hshows₂.table⟩, rfl, Nat.le_succ _⟩
      · rw [hgo₂] at hshows₂
        obtain ⟨hprinted, hlen⟩ := History.go_printed hgo₂
        exact ⟨s₂, [], rfl, hshows₂, by simpa using hprinted, hlen⟩
  · rw [hgo] at hshows₁
    obtain ⟨hprinted, hlen⟩ := History.go_printed hgo
    exact ⟨s₁, [], rfl, hshows₁, by simpa using hprinted, hlen⟩

/-! ## Sessions -/

/-- The arguments of the commands; a command without any counts as one. -/
def argCount : List (HopFiles × List Str) → ℕ
  | [] => 0
  | cmd :: cmds => (if cmd.2 = [] then 1 else cmd.2.length) + argCount cmds

/-- The visits leave room for `n` more arguments. -/
def History.Room (n : ℕ) (h : History) : Prop :=
  1001 * ((h.visits.length : ℤ) + n) ≤ llongMax

theorem HopState.Shows.hopArgs {n : ℕ} {out : List Str} (hs : s.Shows h) (args : List Str)
    (hroom : h.Room (args.length + n)) (hout : h.printed = out) :
    ∃ s', HopState.hopArgs fs home args (s, out) =
        some (s', (args.foldl (History.hop fs home) h).printed) ∧
      s'.Shows (args.foldl (History.hop fs home) h) ∧
      (args.foldl (History.hop fs home) h).Room n := by
  induction args generalizing s h out with
  | nil =>
    rw [List.length_nil, Nat.zero_add] at hroom
    exact ⟨s, by rw [HopState.hopArgs, List.foldl_nil, hout], hs, hroom⟩
  | cons arg args ih =>
    rw [History.Room, List.length_cons] at hroom
    have hsmall : h.Small := by
      rw [History.Small]
      omega
    obtain ⟨s₁, out₁, harg, hshows, hprinted, hlen⟩ := hs.hopArg hsmall fs home arg
    have hroom₁ : (h.hop fs home arg).Room (args.length + n) := by
      rw [History.Room]
      omega
    rw [HopState.hopArgs, harg]
    exact ih hshows hroom₁ (by rw [hprinted, hout])

theorem HopState.Shows.execHop {n : ℕ} {out : List Str} (hs : s.Shows h) (home : Str)
    (cmd : HopFiles × List Str) (hroom : h.Room ((if cmd.2 = [] then 1 else cmd.2.length) + n))
    (hout : h.printed = out) :
    ∃ s', HopState.execHop cmd.1 home cmd.2 (s, out) = some (s', (h.command home cmd).printed) ∧
      s'.Shows (h.command home cmd) ∧ (h.command home cmd).Room n := by
  obtain ⟨fs, _ | ⟨arg, args⟩⟩ := cmd
  · have hsmall : h.Small := by
      rw [if_pos rfl, History.Room] at hroom
      rw [History.Small]
      omega
    obtain ⟨s', hs', hshows⟩ := hs.changeTo hsmall fs home
    obtain ⟨hprinted, hlen⟩ := History.getD_go_printed fs home h
    have hcmd : h.command home (fs, []) = (h.go fs home).getD h := by
      rw [History.command, History.hop, if_pos rfl]
    rw [hcmd, HopState.execHop, hs', hprinted, hout]
    refine ⟨s', rfl, hshows, ?_⟩
    rw [if_pos rfl] at hroom
    rw [History.Room] at hroom ⊢
    omega
  · rw [if_neg (List.cons_ne_nil _ _)] at hroom
    exact hs.hopArgs (arg :: args) hroom hout

/-- `/src` and `/tmp` can be entered, by these names. -/
def twoDirectories : HopFiles where
  chdir _ path := if path = str "/src" ∨ path = str "/tmp" then some path else none
  present _ := true

/-- `hop /src /tmp`, `hop sr`, `hop -`, `hop x`. -/
def fourHops : List (HopFiles × List Str) :=
  [(twoDirectories, [str "/src", str "/tmp"]), (twoDirectories, [str "sr"]),
    (twoDirectories, [str "-"]), (twoDirectories, [str "x"])]

end

end CShell
