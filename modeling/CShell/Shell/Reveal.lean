/-
  C-Shell formalization — `reveal -t` (`reveal_directory` in `reveal.c`).

  A directory is read, its names are sorted and printed one by one, and a
  directory among them is listed right after its name.  What `readdir` returns
  is in no order.

  * `sorted_names`: the sorted array has the visible names of the directory in
    the order of `strcmp`;
  * `revealLoop_eq`: so the listing of a directory is that of the tree without
    its hidden entries, in pre-order;
  * `reveal_directory_lists`: whatever the order of `readdir`, and each entry is
    printed once.
-/
import CShell.Shell.Token
import CShell.Lib.Backwards
import CShell.Lib.DirTree
import CShell.Lib.Qsort
import CShell.Lib.Text

namespace CShell

open Lib

/-! ## reveal_directory -/

/-- The names `readdir` returns for a directory that can be opened, in its order,
    and `S_ISDIR` for a name for which `stat` succeeds. -/
structure DirView where
  opendir : Str → Option (List Str)
  stat : Str → Option Bool

/-- The size of `full_path` and of `current_display`. -/
def revealSize : ℕ := 4096

/-- `snprintf` to one of them. -/
def snprintfReveal (s : Str) : Str := s.take (revealSize - 1)

/-- A hidden name starts with a dot. -/
def isHidden (name : Str) : Bool := name.head? = some (byte '.')

/-- `.` and `..` -/
def isDots (name : Str) : Bool := name = str "." || name = str ".."

section
variable (view : DirView) (qsort : (Str → Str → ℤ) → List Str → List Str) (showAll : Bool)

/-- A name that is not skipped as a hidden one. -/
def isShown (name : Str) : Bool := showAll || !isHidden name

/-- The names that get into `entries`. -/
def isListed (name : Str) : Bool := isShown showAll name && !isDots name

/-- The body of the loop over `entries`: what is printed.  `reveal` is the
    recursive call. -/
def revealEntry (reveal : Str → Str → Option (List Str)) (path displayPath name : Str) :
    Option (List Str) :=
  let fullPath := snprintfReveal (path ++ str "/" ++ name)
  let currentDisplay := snprintfReveal
    (if displayPath = [] then name else displayPath ++ str "/" ++ name)
  match view.stat fullPath with
  | none => some []
  | some true => (reveal fullPath currentDisplay).map ((currentDisplay ++ str "/\n") :: ·)
  | some false => some [currentDisplay ++ str "\n"]

/-- The loop. -/
def revealLoop (reveal : Str → Str → Option (List Str)) (path displayPath : Str) :
    List Str → Option (List Str)
  | [] => some []
  | name :: names => do
    let out ← revealEntry view reveal path displayPath name
    let outs ← revealLoop reveal path displayPath names
    return out ++ outs

/-- `reveal_directory`: what each `printf` prints, if calls are not nested deeper
    than `fuel`. -/
def revealDirectory : ℕ → Str → Str → Option (List Str)
  | 0, _, _ => none
  | fuel + 1, path, displayPath =>
    match view.opendir path with
    | none => some []
    | some names =>
      let entries := qsort strcmp (names.filter (isListed showAll))
      revealLoop view (revealDirectory fuel) path displayPath entries

end

/-! ## Directories of a file system -/

/-- `opendir` and `readdir` give these names, besides `.` and `..`, in any order. -/
def DirView.Lists (view : DirView) (path : Str) (names : List Str) : Prop :=
  ∃ all, view.opendir path = some all ∧ (all.filter fun name => !isDots name).Perm names

/-- The file system has this tree below `path`. -/
def DirView.Holds (view : DirView) (path : Str) : DirTree Str → Prop
  | .nil => True
  | .file name rest => view.stat (path ++ str "/" ++ name) = some false ∧ view.Holds path rest
  | .dir name sub rest =>
    view.stat (path ++ str "/" ++ name) = some true ∧
      view.Lists (path ++ str "/" ++ name) sub.names ∧
      view.Holds (path ++ str "/" ++ name) sub ∧ view.Holds path rest

/-- A name in a directory. -/
def IsName (name : Str) : Prop := name ≠ [] ∧ byte '/' ∉ name ∧ 0 ∉ name

instance (name : Str) : Decidable (IsName name) :=
  inferInstanceAs (Decidable (name ≠ [] ∧ byte '/' ∉ name ∧ 0 ∉ name))

/-- A path relative to a directory. -/
def joinPath : List Str → Str
  | [] => []
  | [name] => name
  | name :: next :: names => name ++ str "/" ++ joinPath (next :: names)

/-- A path as it is displayed. -/
def displayed (displayPath : Str) (names : List Str) : Str :=
  if displayPath = [] then joinPath names else displayPath ++ str "/" ++ joinPath names

/-- The line of an entry. -/
def entryLine (displayPath : Str) (e : List Str × Bool) : Str :=
  displayed displayPath e.1 ++ if e.2 then str "/\n" else str "\n"

/-- With `-a` all entries are visible, otherwise those without a hidden name. -/
def isVisible (showAll : Bool) (e : List Str × Bool) : Bool :=
  showAll || e.1.all fun name => !isHidden name

/-- Names and paths of the tree: none is too long below `path`, nor as it is
    displayed. -/
structure PathsFit (path displayPath : Str) (t : DirTree Str) : Prop where
  named : ∀ e ∈ t.preorder, ∀ name ∈ e.1, IsName name
  full : ∀ e ∈ t.preorder, (path ++ str "/" ++ joinPath e.1).length < revealSize
  display : ∀ e ∈ t.preorder, (displayed displayPath e.1).length < revealSize

/-! ## The sorted array -/

theorem strictComparison_strcmp (l : List Str) : StrictComparison strcmp l := by
  refine ⟨⟨?_, ?_⟩, ?_⟩
  · intro a _ b _
    exact strcmp_neg_iff a b
  · intro a _ b _ c _
    exact strcmp_trans
  · intro a _ b _
    exact eq_of_strcmp

/-- Names in the order of `strcmp`. -/
def NameLt (a b : Str) : Prop := strcmp a b < 0

theorem not_nameLt_self (a : Str) : ¬NameLt a a := by
  rw [NameLt, strcmp_self]
  exact Int.lt_irrefl 0

/-- **The order of `readdir` does not matter.** -/
theorem sorted_names {qsort : (Str → Str → ℤ) → List Str → List Str} (hqsort : IsQsort qsort)
    (showAll : Bool) {all names : List Str} (hall : (all.filter fun name => !isDots name).Perm names)
    (hord : names.Pairwise NameLt) :
    qsort strcmp (all.filter (isListed showAll)) =
      names.filter (isShown showAll) := by
  have hstrict := strictComparison_strcmp (all.filter (isListed showAll))
  have hperm : (names.filter (isShown showAll)).Perm
      (all.filter (isListed showAll)) := by
    have hfilter : all.filter (isListed showAll) =
        (all.filter fun name => !isDots name).filter (isShown showAll) := by
      rw [List.filter_filter]
      rfl
    rw [hfilter]
    exact (hall.filter _).symm
  have hsorted : Sorts strcmp (names.filter (isShown showAll))
      (names.filter (isShown showAll)) :=
    ⟨List.Perm.refl _, (hord.filter _).imp fun h => Int.le_of_lt h⟩
  exact (hqsort strcmp _ hstrict.toComparison).unique hstrict hsorted hperm

/-! ## The listing -/

theorem snprintfReveal_eq {s : Str} (h : s.length < revealSize) : snprintfReveal s = s :=
  List.take_of_length_le (Nat.le_sub_one_of_lt h)

theorem joinPath_cons (name : Str) {names : List Str} (h : names ≠ []) :
    joinPath (name :: names) = name ++ str "/" ++ joinPath names := by
  cases names with
  | nil => exact absurd rfl h
  | cons next names => rfl

theorem displayed_singleton (displayPath name : Str) :
    displayed displayPath [name] =
      if displayPath = [] then name else displayPath ++ str "/" ++ name := rfl

/-- Entries of a directory are displayed as those below it. -/
theorem displayed_displayed {name : Str} (hname : name ≠ []) (displayPath : Str)
    {names : List Str} (h : names ≠ []) :
    displayed (displayed displayPath [name]) names = displayed displayPath (name :: names) := by
  have hne : displayed displayPath [name] ≠ [] := by
    rw [displayed_singleton]
    split
    · exact hname
    · simp [hname]
  rw [displayed, if_neg hne, displayed_singleton, displayed, joinPath_cons name h]
  split
  · rfl
  · simp [List.append_assoc]

theorem entryLine_under {name : Str} (hname : name ≠ []) (displayPath : Str)
    {e : List Str × Bool} (h : e.1 ≠ []) :
    entryLine (displayed displayPath [name]) e = entryLine displayPath (DirTree.under name e) := by
  rw [entryLine, entryLine, displayed_displayed hname displayPath h]
  rfl

theorem PathsFit.mono {path displayPath : Str} {t t' : DirTree Str}
    (h : PathsFit path displayPath t) (hsub : ∀ e ∈ t'.preorder, e ∈ t.preorder) :
    PathsFit path displayPath t' :=
  ⟨fun e he => h.named e (hsub e he), fun e he => h.full e (hsub e he),
    fun e he => h.display e (hsub e he)⟩

theorem PathsFit.sub {path displayPath name : Str} {sub rest : DirTree Str}
    (h : PathsFit path displayPath (.dir name sub rest)) :
    PathsFit (path ++ str "/" ++ name) (displayed displayPath [name]) sub := by
  have hunder : ∀ e ∈ sub.preorder, DirTree.under name e ∈ (DirTree.dir name sub rest).preorder := by
    intro e he
    exact List.mem_cons_of_mem _ (List.mem_append_left _ (List.mem_map_of_mem he))
  have hname : name ≠ [] := (h.named _ List.mem_cons_self name (List.mem_singleton_self _)).1
  refine ⟨?_, ?_, ?_⟩
  · intro e he n hn
    exact h.named _ (hunder e he) n (List.mem_cons_of_mem _ hn)
  · intro e he
    have hfull := h.full _ (hunder e he)
    rwa [DirTree.under, joinPath_cons name (DirTree.ne_nil_of_mem_preorder he),
      ← List.append_assoc, ← List.append_assoc] at hfull
  · intro e he
    have hdisplay := h.display _ (hunder e he)
    rwa [DirTree.under, ← displayed_displayed hname _ (DirTree.ne_nil_of_mem_preorder he)]
      at hdisplay

section
variable {view : DirView} {qsort : (Str → Str → ℤ) → List Str → List Str} {showAll : Bool}

theorem revealEntry_file {reveal : Str → Str → Option (List Str)} {path displayPath name : Str}
    (hfull : (path ++ str "/" ++ name).length < revealSize)
    (hdisplay : (displayed displayPath [name]).length < revealSize)
    (hstat : view.stat (path ++ str "/" ++ name) = some false) :
    revealEntry view reveal path displayPath name =
      some [entryLine displayPath ([name], false)] := by
  rw [displayed_singleton] at hdisplay
  simp only [revealEntry, snprintfReveal_eq hfull, snprintfReveal_eq hdisplay, hstat]
  rfl

theorem revealEntry_dir {reveal : Str → Str → Option (List Str)} {path displayPath name : Str}
    (hfull : (path ++ str "/" ++ name).length < revealSize)
    (hdisplay : (displayed displayPath [name]).length < revealSize)
    (hstat : view.stat (path ++ str "/" ++ name) = some true) :
    revealEntry view reveal path displayPath name =
      (reveal (path ++ str "/" ++ name) (displayed displayPath [name])).map
        (entryLine displayPath ([name], true) :: ·) := by
  rw [displayed_singleton] at hdisplay ⊢
  simp only [revealEntry, snprintfReveal_eq hfull, snprintfReveal_eq hdisplay, hstat]
  rfl

theorem revealLoop_cons {reveal : Str → Str → Option (List Str)} {path displayPath name : Str}
    {names out outs : List Str} (h : revealEntry view reveal path displayPath name = some out)
    (hs : revealLoop view reveal path displayPath names = some outs) :
    revealLoop view reveal path displayPath (name :: names) = some (out ++ outs) := by
  rw [revealLoop, h, hs]
  rfl

/-- The call for a directory is the loop over its visible names. -/
theorem revealDirectory_eq (hqsort : IsQsort qsort) {fuel : ℕ} {path displayPath : Str}
    {t : DirTree Str} (hord : t.Ordered NameLt) (hlists : view.Lists path t.names) :
    revealDirectory view qsort showAll (fuel + 1) path displayPath =
      revealLoop view (revealDirectory view qsort showAll fuel) path displayPath
        (t.prune (isShown showAll)).names := by
  obtain ⟨all, hopen, hperm⟩ := hlists
  rw [revealDirectory, hopen]
  simp only [sorted_names hqsort showAll hperm hord.pairwise, DirTree.names_prune]

/-- **The loop lists the visible part of the tree.** -/
theorem revealLoop_eq (hqsort : IsQsort qsort) {fuel : ℕ} {path displayPath : Str}
    {t : DirTree Str} (hord : t.Ordered NameLt) (hholds : view.Holds path t)
    (hfit : PathsFit path displayPath t) (hfuel : t.height ≤ fuel) :
    revealLoop view (revealDirectory view qsort showAll fuel) path displayPath
        (t.prune (isShown showAll)).names =
      some ((t.prune (isShown showAll)).preorder.map
        (entryLine displayPath)) := by
  induction t generalizing fuel path displayPath with
  | nil => rfl
  | file name rest ih =>
    have hrest := ih hord.2 hholds.2 (hfit.mono fun e => List.mem_cons_of_mem _) hfuel
    rw [DirTree.prune]
    split
    · have hfull : (path ++ str "/" ++ name).length < revealSize :=
        hfit.full ([name], false) List.mem_cons_self
      have hdisplay := hfit.display ([name], false) List.mem_cons_self
      rw [DirTree.names, revealLoop_cons (revealEntry_file hfull hdisplay hholds.1) hrest]
      rfl
    · exact hrest
  | dir name sub rest ihsub ih =>
    obtain ⟨hstat, hlists, hsub, hholds⟩ := hholds
    rw [DirTree.height, Nat.max_le] at hfuel
    have hrest := ih hord.2.2 hholds
      (hfit.mono fun e he => List.mem_cons_of_mem _ (List.mem_append_right _ he)) hfuel.2
    rw [DirTree.prune]
    split
    · have hfull : (path ++ str "/" ++ name).length < revealSize :=
        hfit.full ([name], true) List.mem_cons_self
      have hdisplay := hfit.display ([name], true) List.mem_cons_self
      have hname : name ≠ [] := (hfit.named _ List.mem_cons_self name (List.mem_singleton_self _)).1
      -- one nested call less is left for the directory's own entries
      obtain ⟨fuel, rfl⟩ : ∃ n, fuel = n + 1 := ⟨fuel - 1, by omega⟩
      have hlist : revealEntry view (revealDirectory view qsort showAll (fuel + 1)) path
          displayPath name = some (entryLine displayPath ([name], true) ::
            (sub.prune (isShown showAll)).preorder.map
              (entryLine (displayed displayPath [name]))) := by
        rw [revealEntry_dir hfull hdisplay hstat, revealDirectory_eq hqsort hord.2.1 hlists,
          ihsub hord.2.1 hsub hfit.sub (by omega)]
        rfl
      have hlines : (sub.prune (isShown showAll)).preorder.map
            (entryLine (displayed displayPath [name])) =
          ((sub.prune (isShown showAll)).preorder.map (DirTree.under name)).map
            (entryLine displayPath) := by
        rw [List.map_map]
        refine List.map_congr_left ?_
        intro e he
        exact entryLine_under hname displayPath (DirTree.ne_nil_of_mem_preorder he)
      rw [DirTree.names, revealLoop_cons hlist hrest, hlines, DirTree.preorder, List.map_cons,
        List.map_append, List.cons_append]
    · exact hrest

end

/-! ## Lines -/

theorem isVisible_eq (showAll : Bool) (e : List Str × Bool) :
    isVisible showAll e = e.1.all (isShown showAll) := by
  cases showAll with
  | true => simp [isVisible, isShown]
  | false => rfl

theorem pieces_joinPath {names : List Str} (hne : names ≠ []) (h : ∀ name ∈ names, IsName name) :
    pieces (byte '/') (joinPath names) = names := by
  induction names with
  | nil => exact absurd rfl hne
  | cons name names ih =>
    rw [List.forall_mem_cons] at h
    cases names with
    | nil => exact pieces_of_notMem h.1.2.1
    | cons next names =>
      have hrest := ih (List.cons_ne_nil _ _) h.2
      rw [joinPath, List.append_assoc]
      exact (pieces_append h.1.2.1 _).trans (congrArg _ hrest)

/-- The path and the kind of an entry are in its line. -/
theorem pieces_entry {e : List Str × Bool} (hne : e.1 ≠ []) (h : ∀ name ∈ e.1, IsName name) :
    pieces (byte '/') (joinPath e.1 ++ if e.2 then str "/" else []) =
      e.1 ++ if e.2 then [[]] else [] := by
  split
  · exact (pieces_concat_self _ _).trans (congrArg (· ++ [[]]) (pieces_joinPath hne h))
  · rw [List.append_nil, List.append_nil, pieces_joinPath hne h]

theorem entryLine_eq (displayPath : Str) (e : List Str × Bool) :
    entryLine displayPath e = (if displayPath = [] then [] else displayPath ++ str "/") ++
      (joinPath e.1 ++ if e.2 then str "/" else []) ++ str "\n" := by
  have hend : (if e.2 then str "/\n" else str "\n") = (if e.2 then str "/" else []) ++ str "\n" := by
    cases e.2 <;> rfl
  rw [entryLine, displayed, hend]
  split
  · rw [List.nil_append, List.append_assoc]
  · simp only [List.append_assoc]

theorem entryLine_inj {displayPath : Str} {e e' : List Str × Bool} (hne : e.1 ≠ [])
    (hne' : e'.1 ≠ []) (h : ∀ name ∈ e.1, IsName name) (h' : ∀ name ∈ e'.1, IsName name)
    (heq : entryLine displayPath e = entryLine displayPath e') : e = e' := by
  rw [entryLine_eq, entryLine_eq, List.append_cancel_right_eq, List.append_cancel_left_eq] at heq
  have hpieces := congrArg (pieces (byte '/')) heq
  rw [pieces_entry hne h, pieces_entry hne' h'] at hpieces
  have hnil : [] ∉ e.1 := fun hmem => (h [] hmem).1 rfl
  have hnil' : [] ∉ e'.1 := fun hmem => (h' [] hmem).1 rfl
  obtain ⟨names, isDir⟩ := e
  obtain ⟨names', isDir'⟩ := e'
  cases isDir with
  | false =>
    cases isDir' with
    | false => simpa using hpieces
    | true =>
      refine absurd ?_ hnil
      simp only [Bool.false_eq_true, if_false, List.append_nil, if_true] at hpieces
      rw [hpieces]
      exact List.mem_append_right _ (List.mem_singleton_self _)
  | true =>
    cases isDir' with
    | false =>
      refine absurd ?_ hnil'
      simp only [Bool.false_eq_true, if_false, List.append_nil, if_true] at hpieces
      rw [← hpieces]
      exact List.mem_append_right _ (List.mem_singleton_self _)
    | true => simpa using hpieces

/-- **`reveal` lists the tree**: every visible entry once, in the order of the names with the entries
    of a directory behind it. -/
theorem reveal_directory_lists (view : DirView)
    (qsort : (Str → Str → ℤ) → List Str → List Str) (hqsort : IsQsort qsort) (showAll : Bool)
    (path displayPath : Str) (t : DirTree Str) (hord : t.Ordered NameLt)
    (hlists : view.Lists path t.names) (hholds : view.Holds path t)
    (hfit : PathsFit path displayPath t) (fuel : ℕ) (hfuel : t.height < fuel) :
    let lines := (t.preorder.filter (isVisible showAll)).map (entryLine displayPath)
    revealDirectory view qsort showAll fuel path displayPath = some lines ∧ lines.Nodup ∧
      ∀ names isDir, (names, isDir) ∈ t.preorder ↔ t.find names = some isDir := by
  intro lines
  refine ⟨?_, ?_, ?_⟩
  · obtain ⟨fuel, rfl⟩ : ∃ n, fuel = n + 1 := ⟨fuel - 1, by omega⟩
    rw [revealDirectory_eq hqsort hord hlists,
      revealLoop_eq hqsort hord hholds hfit (Nat.le_of_lt_succ hfuel), DirTree.preorder_prune]
    simp only [lines, ← isVisible_eq]
  · refine (List.nodup_map_iff_inj_on ((DirTree.nodup_preorder not_nameLt_self hord).filter _)).2 ?_
    intro e he e' he' heq
    have hmem := List.mem_of_mem_filter he
    have hmem' := List.mem_of_mem_filter he'
    exact entryLine_inj (DirTree.ne_nil_of_mem_preorder hmem) (DirTree.ne_nil_of_mem_preorder hmem')
      (hfit.named e hmem) (hfit.named e' hmem') heq
  · exact DirTree.mem_preorder_iff not_nameLt_self hord

/-- A file system with `a/.h`, `a/c` and `b` in the current directory. -/
def revealExample : DirView where
  opendir path :=
    if path = str "." then some [str "b", str "..", str "a", str "."]
    else if path = str "./a" then some [str "c", str ".", str ".h", str ".."]
    else none
  stat path :=
    if path = str "./a" then some true
    else if path = str "./b" ∨ path = str "./a/c" ∨ path = str "./a/.h" then some false
    else none

theorem reveal_directory_lists_example :
    let t : DirTree Str :=
      .dir (str "a") (.file (str ".h") (.file (str "c") .nil)) (.file (str "b") .nil)
    (t.Ordered NameLt ∧ revealExample.Lists (str ".") t.names ∧
        revealExample.Holds (str ".") t ∧ PathsFit (str ".") [] t ∧ t.height < 2 ∧
        IsQsort (@mergeQsort Str)) ∧
      revealDirectory revealExample mergeQsort false 2 (str ".") [] =
        some [str "a/\n", str "a/c\n", str "b\n"] := by
  intro t
  have hord : t.Ordered NameLt := by
    refine ⟨?_, ⟨?_, ?_, trivial⟩, ?_, trivial⟩
    all_goals
      simp only [DirTree.names, List.forall_mem_cons, NameLt]
      decide
  have hlists : revealExample.Lists (str ".") t.names := ⟨_, rfl, by decide⟩
  have hholds : revealExample.Holds (str ".") t :=
    ⟨rfl, ⟨_, rfl, by decide⟩, ⟨rfl, rfl, trivial⟩, rfl, trivial⟩
  have hfit : PathsFit (str ".") [] t := ⟨by decide, by decide, by decide⟩
  have hfuel : t.height < 2 := by decide
  refine ⟨⟨hord, hlists, hholds, hfit, hfuel, isQsort_mergeQsort⟩, ?_⟩
  exact (reveal_directory_lists revealExample mergeQsort isQsort_mergeQsort false (str ".") [] t hord
    hlists hholds hfit 2 hfuel).1.trans (by decide)

end CShell
