/-
  C-Shell formalization — `peek` with several files (`exec_peak`).

  The first loop collects the options and up to 100 files; a `-` copies the input at once.
  The files are then printed one after the other, up to the first that cannot be; with `-n`
  the numbers go on from file to file.

  * `fgetsLines_of_complete`: `fgets` over files with complete last lines;
  * `peekLoop_files`: what the first loop does with more files in front;
  * `peek_concat`: anywhere among the arguments, files with complete last lines are
    printed as their concatenation would be, and what follows is numbered as if after it.
-/
import CShell.Shell.Bounds
import CShell.Shell.PeekNumbers

namespace CShell

open Lib

/-! ## The loop over the files -/

/-- What `stat` and `fopen` say about a path. -/
inductive PeekTarget where
  | missing
  | directory
  | unreadable
  | file (contents : Str)

/-- `printf("%d %s", …)` and `printf("%s", …)`. -/
def Printed.bytes (p : Printed) : Str :=
  match p.number with
  | some n => printInt n.toInt ++ str " " ++ p.text
  | none => p.text

/-- The bytes of all lines. -/
def printedBytes (out : List Printed) : Str := out.flatMap Printed.bytes

/-- The body of the loop for a file that is open: what it prints, and `line_count`. -/
def peekFile (showNums rever : Bool) (contents : Str) (lineCount : Int32) : Option (Str × Int32) :=
  if showNums ∧ rever then
    (reverseWithNums contents (getLineCount contents)).map fun out =>
      (printedBytes out, lineCount)
  else if showNums then
    let n := numsLine contents lineCount
    some (printedBytes n.out, n.count)
  else if rever then (reverse contents).map fun out => (out, lineCount)
  else some (contents, lineCount)

/-- The loop over the files: what it prints. -/
def peekFiles (showNums rever : Bool) (stat : Str → PeekTarget) :
    List Str → Int32 → Option Str
  | [], _ => some []
  | path :: paths, lineCount =>
    match stat path with
    | .missing | .unreadable => some (str "peek: no such file or directory\n")
    | .directory => some (str "peek: is a directory\n")
    | .file contents => do
      let r ← peekFile showNums rever contents lineCount
      let rest ← peekFiles showNums rever stat paths r.2
      return r.1 ++ rest

/-- One of the arguments, before the first invalid option, is `-`. -/
def copiesInput : List Str → Bool
  | [] => false
  | v :: vs => if badOption v then false else v = str "-" || copiesInput vs

/-- `exec_peak(tokens)`: what it writes.  A first `-` copies the whole input, and nothing is left of
    it for another one. -/
def execPeak (tokens : List Token) (stat : Str → PeekTarget) (stdin : Str) :
    Except Fault (Option Str) := do
  let copied := if copiesInput (tokens.tail.map Token.value) then stdin else []
  let left := if copiesInput (tokens.tail.map Token.value) then [] else stdin
  match ← peekArgs tokens with
  | none => return some (copied ++ str "peak: invalid syntax")
  | some args =>
    if args.files = [] then return some (copied ++ left)
    else return (peekFiles args.showNums args.reverse stat args.files 0).map (copied ++ ·)

/-! ## Files with complete last lines -/

/-- Empty, or with a line end at its end. -/
def CompleteLines (file : Str) : Prop := file = [] ∨ file.getLast? = some newline

theorem fgetsLines_of_getLast? {size : ℕ} {file : Str} (h : file.getLast? = some newline)
    (rest line : Str) :
    fgetsLines size line (file ++ rest) =
      fgetsLines size line file ++ fgetsLines size [] rest := by
  induction file generalizing line with
  | nil => cases h
  | cons b file ih =>
    rw [List.cons_append, fgetsLines, fgetsLines]
    rcases file with _ | ⟨c, file⟩
    · obtain rfl : b = newline := Option.some.inj h
      rw [if_pos (.inl rfl), if_pos (.inl rfl)]
      rfl
    · rw [List.getLast?_cons_cons] at h
      split
      · rw [ih h, List.cons_append]
      · exact ih h _

/-- `fgets` reads a file with a complete last line, and then what is behind it. -/
theorem fgetsLines_of_complete {size : ℕ} {file : Str} (h : CompleteLines file) (rest : Str) :
    fgetsLines size [] (file ++ rest) = fgetsLines size [] file ++ fgetsLines size [] rest := by
  rcases h with rfl | h
  · rfl
  · exact fgetsLines_of_getLast? h rest []

/-! ## Concatenation -/

/-- What has been printed before does not matter. -/
theorem foldl_numsStep (lines : List Str) (count : Int32) (out : List Printed) :
    lines.foldl NumsState.step ⟨count, out⟩ =
      ⟨(lines.foldl NumsState.step ⟨count, []⟩).count,
        out ++ (lines.foldl NumsState.step ⟨count, []⟩).out⟩ := by
  induction lines generalizing count out with
  | nil => rw [List.foldl_nil, List.foldl_nil, List.append_nil]
  | cons l lines ih =>
    rw [List.foldl_cons, List.foldl_cons, NumsState.step, NumsState.step]
    split
    · rw [ih count, ih count ([] ++ _), List.nil_append, List.append_assoc]
    · rw [ih (count + 1), ih (count + 1) ([] ++ _), List.nil_append, List.append_assoc]

theorem numsLine_append {file : Str} (h : CompleteLines file) (rest : Str) (count : Int32) :
    numsLine (file ++ rest) count =
      ⟨(numsLine rest (numsLine file count).count).count,
        (numsLine file count).out ++ (numsLine rest (numsLine file count).count).out⟩ := by
  rw [numsLine, fgetsLines_of_complete h, List.foldl_append, ← numsLine, foldl_numsStep]
  rfl

/-- The body of the loop, for two files at once. -/
theorem peekFile_append {showNums : Bool} {file : Str} (h : showNums → CompleteLines file)
    (rest : Str) (count : Int32) :
    peekFile showNums false (file ++ rest) count = (do
      let r ← peekFile showNums false file count
      let r' ← peekFile showNums false rest r.2
      return (r.1 ++ r'.1, r'.2)) := by
  cases showNums with
  | true =>
    simp only [peekFile, Bool.false_eq_true, and_false, if_false, if_true, numsLine_append (h rfl),
      printedBytes, List.flatMap_append]
    rfl
  | false => rfl

/-- The loop goes over files as over their concatenation. -/
theorem peekFiles_concat {showNums : Bool} {stat : Str → PeekTarget} (files : List (Str × Str))
    (hstat : ∀ f ∈ files, stat f.1 = .file f.2)
    (hend : showNums → ∀ f ∈ files, CompleteLines f.2) (paths : List Str) (count : Int32) :
    peekFiles showNums false stat (files.map Prod.fst ++ paths) count = (do
      let r ← peekFile showNums false (files.map Prod.snd).flatten count
      let rest ← peekFiles showNums false stat paths r.2
      return r.1 ++ rest) := by
  induction files generalizing count with
  | nil =>
    have hnil : peekFile showNums false [] count = some ([], count) := by
      cases showNums <;> rfl
    rw [List.map_nil, List.map_nil, List.nil_append, List.flatten_nil, hnil]
    simp
  | cons f files ih =>
    rw [List.forall_mem_cons] at hstat
    have hend' : showNums → ∀ f ∈ files, CompleteLines f.2 :=
      fun hn g hg => hend hn g (List.mem_cons_of_mem _ hg)
    rw [List.map_cons, List.map_cons, List.cons_append, List.flatten_cons,
      peekFile_append (fun hn => hend hn f List.mem_cons_self), peekFiles, hstat.1]
    simp only [ih hstat.2 hend', Option.bind_eq_bind, Option.pure_def, Option.bind_assoc,
      Option.bind_some, List.append_assoc]

/-- The same behind other files. -/
theorem peekFiles_append {showNums rever : Bool} {stat : Str → PeekTarget} {paths paths' : List Str}
    (h : ∀ count, peekFiles showNums rever stat paths count = peekFiles showNums rever stat paths' count)
    (before : List Str) (count : Int32) :
    peekFiles showNums rever stat (before ++ paths) count =
      peekFiles showNums rever stat (before ++ paths') count := by
  induction before generalizing count with
  | nil => exact h count
  | cons path before ih =>
    rw [List.cons_append, List.cons_append, peekFiles, peekFiles]
    cases stat path with
    | file contents => simp only [ih]
    | _ => rfl

/-! ## The arguments -/

/-- The argument is no option and not `-`. -/
def IsFileArg (v : Str) : Prop := v.head? ≠ some (byte '-')

theorem IsFileArg.ne_dash {v : Str} (h : IsFileArg v) : v ≠ str "-" := by
  rintro rfl
  exact h rfl

theorem IsFileArg.not_bad {v : Str} (h : IsFileArg v) : badOption v = false := by
  rw [badOption, decide_eq_false h, Bool.false_and]

theorem copiesInput_names {names : List Str} (h : ∀ v ∈ names, IsFileArg v) (before after : List Str) :
    copiesInput (before ++ names ++ after) = copiesInput (before ++ after) := by
  induction before with
  | nil =>
    induction names with
    | nil => rfl
    | cons v names ih =>
      rw [List.forall_mem_cons] at h
      rw [List.nil_append, List.cons_append, copiesInput, if_neg (by rw [h.1.not_bad]; decide),
        decide_eq_false h.1.ne_dash, Bool.false_or]
      exact ih h.2
  | cons v before ih =>
    rw [List.cons_append, List.cons_append, List.cons_append, copiesInput, copiesInput, ih]

theorem peekLoop_name {v : Str} (h : IsFileArg v) (args : PeekArgs) (ts : List Token) :
    peekLoop args (.word v :: ts) =
      (push maxPeekFiles args.files v >>= fun files => peekLoop { args with files } ts) := by
  rw [peekLoop, Token.value_word, if_neg h.ne_dash, if_neg h]

theorem peekLoop_append (args : PeekArgs) (ts us : List Token) :
    peekLoop args (ts ++ us) = (peekLoop args ts >>= fun r =>
      match r with
      | none => .ok none
      | some args => peekLoop args us) := by
  induction ts generalizing args with
  | nil => rfl
  | cons t ts ih =>
    rw [List.cons_append, peekLoop, peekLoop]
    by_cases hdash : t.value = str "-"
    · rw [if_pos hdash, if_pos hdash, ih]
    rw [if_neg hdash, if_neg hdash]
    by_cases hopt : t.value.head? = some (byte '-')
    · rw [if_pos hopt, if_pos hopt]
      cases peekOption args t.value.tail with
      | none => rfl
      | some args' => exact ih args'
    · rw [if_neg hopt, if_neg hopt]
      cases push maxPeekFiles args.files t.value with
      | error e => rfl
      | ok files => exact ih _

theorem peekOption_files (cs : Str) (args : PeekArgs) (files : List Str) :
    peekOption { args with files } cs = (peekOption args cs).map fun a => { a with files } := by
  induction cs generalizing args with
  | nil => rfl
  | cons c cs ih =>
    simp only [peekOption]
    split
    · exact ih { args with showNums := true }
    split
    · exact ih { args with reverse := true }
    · rfl

theorem files_of_peekOption {cs : Str} {args a : PeekArgs} (h : peekOption args cs = some a) :
    a.files = args.files := by
  have hmap := peekOption_files cs args args.files
  rw [h] at hmap
  have ha : a = { a with files := args.files } := Option.some.inj hmap
  rw [ha]

/-- The loop adds files to those it has; which they are does not matter to it. -/
theorem peekLoop_files {ts : List Token} {args a : PeekArgs} (h : peekLoop args ts = .ok (some a)) :
    ∃ more, a.files = args.files ++ more ∧
      ∀ files, files.length ≤ args.files.length →
        peekLoop { args with files } ts = .ok (some { a with files := files ++ more }) := by
  induction ts generalizing args with
  | nil =>
    obtain rfl : args = a := Option.some.inj (Except.ok.inj h)
    exact ⟨[], (List.append_nil _).symm, fun files _ => by rw [List.append_nil]; rfl⟩
  | cons t ts ih =>
    rw [peekLoop] at h
    by_cases hdash : t.value = str "-"
    · rw [if_pos hdash] at h
      obtain ⟨more, hmore, hall⟩ := ih h
      refine ⟨more, hmore, fun files hle => ?_⟩
      rw [peekLoop, if_pos hdash]
      exact hall files hle
    rw [if_neg hdash] at h
    by_cases hopt : t.value.head? = some (byte '-')
    · rw [if_pos hopt] at h
      cases ho : peekOption args t.value.tail with
      | none =>
        rw [ho] at h
        cases h
      | some args' =>
        rw [ho] at h
        have hfiles := files_of_peekOption ho
        obtain ⟨more, hmore, hall⟩ := ih h
        refine ⟨more, hfiles ▸ hmore, fun files hle => ?_⟩
        rw [peekLoop, if_neg hdash, if_pos hopt, peekOption_files, ho]
        exact hall files (hfiles ▸ hle)
    · rw [if_neg hopt] at h
      obtain ⟨files', hpush, hrest⟩ := exists_of_bind_eq_ok h
      rw [push] at hpush
      split at hpush
      case isFalse => cases hpush
      case isTrue hroom =>
        obtain rfl := Except.ok.inj hpush
        obtain ⟨more, hmore, hall⟩ := ih hrest
        refine ⟨t.value :: more, by rw [hmore, List.append_assoc]; rfl, fun files hle => ?_⟩
        rw [peekLoop, if_neg hdash, if_neg hopt]
        simp only [push_of_lt t.value (Nat.lt_of_le_of_lt hle hroom), ok_bind]
        rw [hall (files ++ [t.value]) (by simpa using hle), List.append_assoc]
        rfl

/-- Names are collected, as long as there is room. -/
theorem peekLoop_names {names : List Str} (hnames : ∀ v ∈ names, IsFileArg v) {ts : List Token}
    {args a : PeekArgs} (h : peekLoop args (names.map .word ++ ts) = .ok (some a)) :
    peekLoop { args with files := args.files ++ names } ts = .ok (some a) ∧
      (names ≠ [] → args.files.length < maxPeekFiles) := by
  induction names generalizing args with
  | nil =>
    rw [List.append_nil]
    exact ⟨h, fun hne => absurd rfl hne⟩
  | cons v names ih =>
    rw [List.forall_mem_cons] at hnames
    rw [List.map_cons, List.cons_append, peekLoop_name hnames.1] at h
    obtain ⟨files, hpush, hrest⟩ := exists_of_bind_eq_ok h
    rw [push] at hpush
    split at hpush
    case isFalse => cases hpush
    case isTrue hroom =>
      obtain rfl := Except.ok.inj hpush
      have hloop := (ih hnames.2 hrest).1
      rw [List.append_assoc] at hloop
      exact ⟨hloop, fun _ => hroom⟩

/-- One name in the place of several. -/
theorem peekArgs_one {names : List Str} (hnames : ∀ v ∈ names, IsFileArg v) (hne : names ≠ []) {one : Str}
    (hone : IsFileArg one) {cmd : Token} {before after : List Token} {a : PeekArgs}
    (h : peekArgs (cmd :: (before ++ names.map .word ++ after)) = .ok (some a)) :
    ∃ first more, a.files = first ++ names ++ more ∧
      peekArgs (cmd :: (before ++ [.word one] ++ after)) =
        .ok (some { a with files := first ++ [one] ++ more }) := by
  rw [peekArgs, List.tail_cons, List.append_assoc, peekLoop_append] at h
  obtain ⟨r, hbefore, hrest⟩ := exists_of_bind_eq_ok h
  cases r with
  | none => cases hrest
  | some args =>
    obtain ⟨hloop, hroom⟩ := peekLoop_names hnames hrest
    obtain ⟨more, hfiles, hall⟩ := peekLoop_files hloop
    refine ⟨args.files, more, hfiles, ?_⟩
    have hle : (args.files ++ [one]).length ≤ (args.files ++ names).length := by
      have := List.length_pos_iff.2 hne
      rw [List.length_append, List.length_append, List.length_singleton]
      omega
    rw [peekArgs, List.tail_cons, List.append_assoc, peekLoop_append, hbefore]
    simp only [ok_bind, List.singleton_append]
    rw [peekLoop_name hone, push_of_lt one (hroom hne), ok_bind]
    exact hall _ hle

/-- **Several files are printed like one**: for accepted arguments without `-r`, files, with complete
    last lines if there are numbers, are printed as one file with all they contain would be; the
    options and files before and behind them count as they would around that. -/
theorem peek_concat (stat : Str → PeekTarget) (stdin : Str) (files : List (Str × Str))
    (hne : files ≠ []) (hnames : ∀ f ∈ files, IsFileArg f.1)
    (hstat : ∀ f ∈ files, stat f.1 = .file f.2) (one : Str) (hname : IsFileArg one)
    (hone : stat one = .file (files.map Prod.snd).flatten) (cmd : Token) (before after : List Token)
    (args : PeekArgs)
    (hargs : peekArgs (cmd :: (before ++ (files.map Prod.fst).map .word ++ after)) = .ok (some args))
    (hforward : args.reverse = false)
    (hend : args.showNums → ∀ f ∈ files, CompleteLines f.2) :
    execPeak (cmd :: (before ++ (files.map Prod.fst).map .word ++ after)) stat stdin =
      execPeak (cmd :: (before ++ [.word one] ++ after)) stat stdin := by
  have hnames' : ∀ v ∈ files.map Prod.fst, IsFileArg v := List.forall_mem_map.2 hnames
  obtain ⟨first, more, hfiles, hargs'⟩ := peekArgs_one hnames' (by simpa using hne) hname hargs
  have hcopies :
      copiesInput ((before ++ (files.map Prod.fst).map Token.word ++ after).map Token.value) =
        copiesInput ((before ++ [Token.word one] ++ after).map Token.value) := by
    have hvalues : ((files.map Prod.fst).map Token.word).map Token.value = files.map Prod.fst := by
      rw [List.map_map]
      exact List.map_id _
    simp only [List.map_append, hvalues, List.map_cons, List.map_nil, Token.value_word]
    rw [copiesInput_names hnames', copiesInput_names (List.forall_mem_singleton.2 hname)]
  have hloop : ∀ count, peekFiles args.showNums false stat (files.map Prod.fst ++ more) count =
      peekFiles args.showNums false stat (one :: more) count := by
    intro count
    rw [peekFiles_concat files hstat hend, peekFiles.eq_def]
    simp only [hone]
  have hsome : first ++ files.map Prod.fst ++ more ≠ [] := by simp [hne]
  have hsome' : first ++ [one] ++ more ≠ [] := by simp
  rw [execPeak, execPeak, hargs, hargs', List.tail_cons, List.tail_cons, hcopies]
  simp only [ok_bind, hfiles, hforward]
  rw [if_neg hsome, if_neg hsome', List.append_assoc first, List.append_assoc first,
    List.singleton_append, peekFiles_append hloop first]

/-- Two files, the two as one, and a directory. -/
def twoFiles (path : Str) : PeekTarget :=
  if path = str "a" then .file (str "x\n\n")
  else if path = str "b" then .file (str "y\nz\n")
  else if path = str "ab" then .file (str "x\n\ny\nz\n")
  else .directory

/-- `peek -n a b /` and `peek -n ab /`. -/
theorem peek_concat_two :
    execPeak [.word (str "peek"), .word (str "-n"), .word (str "a"), .word (str "b"), .word (str "/")]
        twoFiles [] =
      execPeak [.word (str "peek"), .word (str "-n"), .word (str "ab"), .word (str "/")] twoFiles [] ∧
    execPeak [.word (str "peek"), .word (str "-n"), .word (str "ab"), .word (str "/")] twoFiles [] =
      .ok (some (str "1 x\n\n2 y\n3 z\npeek: is a directory\n")) := by
  refine ⟨?_, by decide +kernel⟩
  refine peek_concat twoFiles [] [(str "a", str "x\n\n"), (str "b", str "y\nz\n")]
    (List.cons_ne_nil _ _) ?_ ?_ (str "ab") (by unfold IsFileArg; decide) (by rfl) (.word (str "peek"))
    [.word (str "-n")] [.word (str "/")] ⟨true, false, [str "a", str "b", str "/"]⟩ rfl rfl ?_
  · unfold IsFileArg
    decide
  · rw [List.forall_mem_cons, List.forall_mem_singleton]
    exact ⟨rfl, rfl⟩
  · intro _
    rw [List.forall_mem_cons, List.forall_mem_singleton]
    exact ⟨.inr rfl, .inr rfl⟩

end CShell
