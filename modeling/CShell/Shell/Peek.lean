/-
  C-Shell formalization — `peek -r` (`reverse` in `peek.c`).

  The file is read from its end.  A line end prints what has been collected
  since the one after it, so what follows the last line end is printed as a
  line even if it is empty, and what precedes the first one only if it is not.

  * `reverse_eq`: what is printed, in terms of the parts between line ends,
    wherever these are in the blocks;
  * `reverse_lines_iff`: it is the lines in reverse order iff the file neither
    starts nor ends with a line end, or has nothing else.
-/
import CShell.Shell.Token
import CShell.Lib.Text
import CShell.Lib.Backwards

namespace CShell

open Lib

/-! ## reverse -/

/-- The size of `buffer` and of `line`. -/
def peekSize : ℕ := 1024

/-- `line`, up to `line_pos`, and what has been printed. -/
structure ReverseState where
  line : Str
  out : Str

/-- The collected line and a line end, as they are printed. -/
def ReverseState.printLine (r : ReverseState) : Str := r.out ++ r.line.reverse ++ [newline]

/-- The body of the loop over `buffer`; `none` where `line` has no room. -/
def ReverseState.step (r : ReverseState) (b : UInt8) : Option ReverseState :=
  if b = newline then some ⟨[], r.printLine⟩
  else if r.line.length < peekSize then some { r with line := r.line ++ [b] }
  else none

/-- After the loop. -/
def ReverseState.finish (r : ReverseState) : Str := if r.line ≠ [] then r.printLine else r.out

/-- `reverse`: what it prints, for a file that can be read. -/
def reverse (file : Str) : Option Str :=
  (foldBack peekSize ReverseState.step file file.length file.length ⟨[], []⟩).map
    ReverseState.finish

/-! ## What is printed -/

/-- Lines as they are printed. -/
def printLines (lines : List Str) : Str := (lines.map (· ++ [newline])).flatten

theorem printLines_concat (lines : List Str) (l : Str) :
    printLines (lines ++ [l]) = printLines lines ++ l ++ [newline] := by
  simp [printLines]

/-- When the file has been read, the first piece is in `line` and the others
    have been printed. -/
theorem foldlM_step {file s : Str} {ss : List Str} (h : pieces newline file = s :: ss)
    (hlen : ∀ l ∈ s :: ss, l.length < peekSize) :
    file.reverse.foldlM ReverseState.step ⟨[], []⟩ = some ⟨s.reverse, printLines ss.reverse⟩ := by
  induction file generalizing s ss with
  | nil =>
    rw [pieces_nil, List.cons.injEq] at h
    obtain ⟨rfl, rfl⟩ := h
    rfl
  | cons b file ih =>
    obtain ⟨t, ts, ht⟩ := exists_pieces newline file
    rw [List.reverse_cons, List.foldlM_append]
    by_cases hb : b = newline
    · subst hb
      rw [pieces_cons_self, ht, List.cons.injEq] at h
      obtain ⟨rfl, rfl⟩ := h
      rw [ih ht fun l hl => hlen l (List.mem_cons_of_mem _ hl)]
      simp [ReverseState.step, ReverseState.printLine, printLines]
    · rw [pieces_cons_of_ne hb ht, List.cons.injEq] at h
      obtain ⟨rfl, rfl⟩ := h
      rw [List.forall_mem_cons, List.length_cons] at hlen
      have hroom : t.length < peekSize := by omega
      rw [ih ht (List.forall_mem_cons.2 ⟨hroom, hlen.2⟩)]
      simp [ReverseState.step, hb, hroom]

theorem reverse_eq {file s : Str} {ss : List Str} (h : pieces newline file = s :: ss)
    (hlen : ∀ l ∈ s :: ss, l.length < peekSize) :
    reverse file =
      some (printLines ss.reverse ++ if s = [] then [] else s ++ [newline]) := by
  rw [reverse, foldBack_eq _ _ (by decide) (Nat.le_refl _), List.take_length, foldlM_step h hlen]
  by_cases hs : s = []
  · simp [ReverseState.finish, hs]
  · simp [ReverseState.finish, ReverseState.printLine, hs]

/-! ## The lines of a file -/

/-- What is between line ends; a line end at the end of the file does not start
    another line. -/
def fileLines (file : Str) : List Str :=
  let parts := pieces newline file
  if parts.getLast? = some [] then parts.dropLast else parts

theorem fileLines_of_newline_end {file : Str}
    (h : (pieces newline file).getLast? = some []) :
    fileLines file = (pieces newline file).dropLast := if_pos h

theorem fileLines_of_not_newline_end {file : Str}
    (h : (pieces newline file).getLast? ≠ some []) :
    fileLines file = pieces newline file := if_neg h

/-- The part that is not a line is empty. -/
theorem length_lt_of_fileLines {file : Str} (h : ∀ l ∈ fileLines file, l.length < peekSize) :
    ∀ l ∈ pieces newline file, l.length < peekSize := by
  intro l hl
  by_cases hlast : (pieces newline file).getLast? = some []
  · rw [fileLines_of_newline_end hlast] at h
    rw [← List.dropLast_append_getLast? _ hlast, List.mem_append, List.mem_singleton] at hl
    rcases hl with hl | rfl
    · exact h l hl
    · decide
  · rw [fileLines_of_not_newline_end hlast] at h
    exact h l hl

/-- A file that ends with a line end has more than one piece. -/
theorem exists_of_getLast? {file s : Str} {ss : List Str} (hne : file ≠ [])
    (h : pieces newline file = s :: ss) (hlast : (s :: ss).getLast? = some []) :
    ∃ mid, ss = mid ++ [[]] := by
  rcases List.eq_nil_or_concat ss with rfl | ⟨mid, z, rfl⟩
  · obtain ⟨b, file, rfl⟩ := List.exists_cons_of_ne_nil hne
    have hs : s = [] := by simpa using hlast
    have hb : b = newline := by
      rw [← head?_pieces (x := newline) b file, h, hs]
      rfl
    obtain ⟨t, ts, ht⟩ := exists_pieces newline file
    rw [hb, pieces_cons_self, ht] at h
    cases h
  · obtain rfl : z = [] := by
      rw [List.concat_eq_append, ← List.cons_append, List.getLast?_concat] at hlast
      exact Option.some.inj hlast
    exact ⟨mid, List.concat_eq_append⟩

/-- A file with a line end at its end: the empty part after it is printed first. -/
theorem printed_iff_of_newline_end {file s : Str} {mid : List Str}
    (h : pieces newline file = s :: (mid ++ [[]])) :
    printLines (mid ++ [[]]).reverse ++ (if s = [] then [] else s ++ [newline]) =
        printLines (s :: mid).reverse ↔ ∀ b ∈ file, b = newline := by
  have hfirst : printLines (mid ++ [[]]).reverse = newline :: printLines mid.reverse := by
    simp [printLines]
  rw [hfirst, List.reverse_cons, printLines_concat]
  by_cases hs : s = []
  · rw [if_pos hs, hs, List.append_nil, List.append_nil, cons_eq_concat_iff]
    constructor
    · intro hall b hb
      by_contra hbn
      obtain ⟨l, hl, hbl⟩ := exists_mem_pieces hb hbn
      rw [h, hs, List.mem_cons, List.mem_append, List.mem_singleton] at hl
      rcases hl with rfl | hl | rfl
      · cases hbl
      · refine hbn (hall b ?_)
        simp only [printLines, List.mem_flatten, List.mem_map, List.mem_reverse]
        exact ⟨_, ⟨l, hl, rfl⟩, List.mem_append_left _ hbl⟩
      · cases hbl
    · intro hall b hb
      simp only [printLines, List.mem_flatten, List.mem_map, List.mem_reverse] at hb
      obtain ⟨-, ⟨l, hl, rfl⟩, hb⟩ := hb
      obtain rfl : l = [] := by
        refine eq_nil_of_mem_pieces hall ?_
        rw [h]
        exact List.mem_cons_of_mem _ (List.mem_append_left _ hl)
      simpa using hb
  · rw [if_neg hs]
    refine iff_of_false ?_ ?_
    · intro heq
      have := congrArg List.length heq
      simp only [List.length_cons, List.length_append] at this
      omega
    · intro hall
      refine hs (eq_nil_of_mem_pieces hall ?_)
      rw [h]
      exact List.mem_cons_self

/-- A file without one: all is printed but an empty part at the start. -/
theorem printed_iff_of_not_newline_end {s : Str} {ss : List Str} :
    printLines ss.reverse ++ (if s = [] then [] else s ++ [newline]) =
        printLines (s :: ss).reverse ↔ s ≠ [] := by
  rw [List.reverse_cons, printLines_concat, List.append_assoc, List.append_cancel_left_eq]
  by_cases hs : s = []
  · simp [hs]
  · simp [hs]

/-- **`peek -r` prints the lines from the last to the first** iff the file consists of line ends only, or
    has none at its start and none at its end. -/
theorem reverse_lines_iff (file : Str) (hlen : ∀ l ∈ fileLines file, l.length ≤ 1023) :
    reverse file = some (printLines (fileLines file).reverse) ↔
      (∀ b ∈ file, b = newline) ∨
        (file.head? ≠ some newline ∧ file.getLast? ≠ some newline) := by
  obtain ⟨s, ss, h⟩ := exists_pieces newline file
  have hlt : ∀ l ∈ pieces newline file, l.length < peekSize := by
    refine length_lt_of_fileLines ?_
    intro l hl
    exact Nat.lt_succ_of_le (hlen l hl)
  rw [h] at hlt
  rw [reverse_eq h hlt, Option.some.injEq]
  by_cases hne : file = []
  · subst hne
    cases h
    simp [fileLines, pieces_nil]
  have hends := getLast?_pieces (x := newline) hne
  by_cases hlast : (pieces newline file).getLast? = some []
  · have hlines := fileLines_of_newline_end hlast
    rw [h] at hlast hlines
    obtain ⟨mid, rfl⟩ := exists_of_getLast? hne h hlast
    rw [← List.cons_append, List.dropLast_concat] at hlines
    rw [hlines, printed_iff_of_newline_end h]
    have hend := hends.1 (h ▸ hlast)
    exact (or_iff_left fun hne => hne.2 hend).symm
  · rw [fileLines_of_not_newline_end hlast, h, printed_iff_of_not_newline_end]
    have hend : file.getLast? ≠ some newline := mt hends.2 hlast
    obtain ⟨b, rest, rfl⟩ := List.exists_cons_of_ne_nil hne
    have hhead := head?_pieces (x := newline) b rest
    rw [h, List.head?_cons, Option.some.injEq] at hhead
    have hall : ¬∀ c ∈ b :: rest, c = newline := by
      intro hall
      obtain ⟨c, hc⟩ := Option.ne_none_iff_exists'.1 (mt List.getLast?_eq_none_iff.1 hne)
      exact hend (hall c (List.mem_of_getLast? hc) ▸ hc)
    rw [or_iff_right hall, and_iff_left hend, List.head?_cons, ne_eq, ne_eq, Option.some.injEq, hhead]

/-- Two lines, the second one without a line end. -/
theorem reverse_lines_iff_two :
    (∀ l ∈ fileLines (str "one\ntwo"), l.length ≤ 1023) ∧
      reverse (str "one\ntwo") = some (printLines [str "two", str "one"]) := by
  have h : ∀ l ∈ fileLines (str "one\ntwo"), l.length ≤ 1023 := by decide
  exact ⟨h, (reverse_lines_iff (str "one\ntwo") h).2 (.inr (by decide))⟩

/-- A line end at the end of a file adds an empty line, and an empty line at the
    start is lost. -/
theorem reverse_adds_and_loses :
    let ended := str "one\ntwo\n"
    let started := str "\none\ntwo"
    (∀ l ∈ fileLines ended ++ fileLines started, l.length ≤ 1023) ∧
      fileLines ended = [str "one", str "two"] ∧
      reverse ended = some (printLines [[], str "two", str "one"]) ∧
      reverse ended ≠ some (printLines (fileLines ended).reverse) ∧
      fileLines started = [[], str "one", str "two"] ∧
      reverse started = some (printLines [str "two", str "one"]) ∧
      reverse started ≠ some (printLines (fileLines started).reverse) := by
  decide

end CShell
