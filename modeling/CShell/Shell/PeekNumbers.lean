/-
  C-Shell formalization — `peek -n` and `peek -nr` (`nums_line`,
  `get_line_count` and `reverse_with_nums` in `peek.c`).

  One reads lines with `fgets` and counts up; the other counts them first and
  then reads the file from its end and counts down.  Both give a number to the
  lines that are not blank only.

  * `numbered_numsLine`, `numbered_reverseWithNums`: what they number, in terms
    of the parts between line ends;
  * `reverse_with_nums_agrees`: the numbered lines are the same ones, with the
    same numbers, in reverse order.
-/
import CShell.Shell.Peek

namespace CShell

open Lib

/-! ## is_empty, get_line_count and nums_line -/

/-- What is printed for a line: a number and a blank, if it has one, and a text. -/
structure Printed where
  number : Option Int32
  text : Str

/-- `is_empty` -/
def isEmpty (line : Str) : Bool := (cString line).all isspace

/-- `get_line_count` -/
def getLineCount (file : Str) : Int32 :=
  (fgetsLines peekSize [] file).foldl (fun count line => if isEmpty line then count else count + 1) 0

/-- `*count` and what has been printed. -/
structure NumsState where
  count : Int32
  out : List Printed

/-- The body of the loop of `nums_line`. -/
def NumsState.step (n : NumsState) (line : Str) : NumsState :=
  if isEmpty line then { n with out := n.out ++ [⟨none, cString line⟩] }
  else
    { count := n.count + 1
      out := n.out ++ [⟨some (n.count + 1), cString line⟩] }

/-- `nums_line`; the count goes on in the next file. -/
def numsLine (file : Str) (count : Int32) : NumsState :=
  (fgetsLines peekSize [] file).foldl NumsState.step ⟨count, []⟩

/-! ## reverse_with_nums -/

/-- `line`, up to `line_pos`, `line_number` and what has been printed. -/
structure ReverseNums where
  line : Str
  number : Int32
  out : List Printed

/-- The collected line as it is printed, with a number if it is not blank. -/
def ReverseNums.print (r : ReverseNums) : ReverseNums :=
  let empty := r.line.all isspace
  { line := []
    number := if empty then r.number else r.number - 1
    out := r.out ++ [⟨if empty then none else some r.number, r.line.reverse ++ [newline]⟩] }

/-- The body of the loop over `buffer`; a byte for which `line` has no room is
    dropped. -/
def ReverseNums.step (r : ReverseNums) (b : UInt8) : ReverseNums :=
  if b = newline then r.print
  else if r.line.length < peekSize - 1 then { r with line := r.line ++ [b] }
  else r

/-- After the loop. -/
def ReverseNums.finish (r : ReverseNums) : List Printed :=
  if 0 < r.line.length then r.print.out else r.out

/-- `reverse_with_nums`: what it prints, for a file that can be read. -/
def reverseWithNums (file : Str) (totalLines : Int32) : Option (List Printed) :=
  (foldBack peekSize (fun r b => some (ReverseNums.step r b)) file file.length file.length
    ⟨[], totalLines, []⟩).map ReverseNums.finish

/-! ## Numbered lines -/

/-- The numbers that are printed, each with its text up to the line end. -/
def numbered (out : List Printed) : List (Int32 × Str) :=
  out.filterMap fun p => p.number.map fun n => (n, p.text.takeWhile (· ≠ newline))

theorem numbered_append (out out' : List Printed) :
    numbered (out ++ out') = numbered out ++ numbered out' := List.filterMap_append

theorem numbered_none (text : Str) : numbered [⟨none, text⟩] = [] := rfl

theorem numbered_some (n : Int32) (text : Str) :
    numbered [⟨some n, text⟩] = [(n, text.takeWhile (· ≠ newline))] := rfl

/-- The text of a line that gets a number. -/
def numberedText (line : Str) : Option Str :=
  if isEmpty line then none else some ((cString line).takeWhile (· ≠ newline))

theorem numberedText_of_isEmpty {line : Str} (h : isEmpty line) : numberedText line = none :=
  if_pos h

theorem numberedText_of_not_isEmpty {line : Str} (h : ¬isEmpty line) :
    numberedText line = some ((cString line).takeWhile (· ≠ newline)) := if_neg h

theorem takeWhile_concat_newline (l : Str) :
    (l ++ [newline]).takeWhile (· ≠ newline) = l.takeWhile (· ≠ newline) := by
  induction l with
  | nil => rfl
  | cons b l ih =>
    rw [List.cons_append, List.takeWhile_cons, List.takeWhile_cons, ih]

/-- A line end does not count. -/
theorem numberedText_concat_newline (l : Str) :
    numberedText (l ++ [newline]) = numberedText l := by
  rw [numberedText, numberedText, isEmpty, isEmpty]
  by_cases h0 : 0 ∈ l
  · rw [cString_append_of_mem h0]
  · have h0' : 0 ∉ l ++ [newline] := by
      rw [List.mem_append, not_or]
      exact ⟨h0, by decide⟩
    have hblank : (l ++ [newline]).all isspace = l.all isspace := by
      rw [List.all_append, List.all_cons, List.all_nil]
      exact Bool.and_true _
    rw [cString_of_notMem h0', cString_of_notMem h0, hblank, takeWhile_concat_newline]

/-- Numbers from `c + 1` up. -/
def numberUp : Int32 → List Str → List (Int32 × Str)
  | _, [] => []
  | c, t :: ts => (c + 1, t) :: numberUp (c + 1) ts

/-- Numbers from `n` down. -/
def numberDown : Int32 → List Str → List (Int32 × Str)
  | _, [] => []
  | n, t :: ts => (n, t) :: numberDown (n - 1) ts

theorem numberDown_append (n : Int32) (ts us : List Str) :
    numberDown n (ts ++ us) = numberDown n ts ++ numberDown (n - Int32.ofNat ts.length) us := by
  induction ts generalizing n with
  | nil => simp [numberDown]
  | cons t ts ih =>
    have hn : n - 1 - Int32.ofNat ts.length = n - Int32.ofNat (ts.length + 1) := by
      rw [Int32.ofNat_add]
      grind
    rw [List.cons_append, numberDown, ih, hn, numberDown, List.cons_append, List.length_cons]

/-- **Up and down.** -/
theorem reverse_numberUp (c : Int32) (ts : List Str) :
    (numberUp c ts).reverse = numberDown (c + Int32.ofNat ts.length) ts.reverse := by
  induction ts generalizing c with
  | nil => rfl
  | cons t ts ih =>
    have hn : c + 1 + Int32.ofNat ts.length = c + Int32.ofNat (ts.length + 1) := by
      rw [Int32.ofNat_add]
      grind
    have hlast : c + Int32.ofNat (ts.length + 1) - Int32.ofNat ts.reverse.length = c + 1 := by
      rw [List.length_reverse, ← hn]
      grind
    rw [numberUp, List.reverse_cons, ih, List.reverse_cons, List.length_cons, numberDown_append,
      hn, hlast]
    rfl

/-! ## From the start -/

theorem foldl_count (lines : List Str) (c : Int32) :
    lines.foldl (fun count line => if isEmpty line then count else count + 1) c =
      c + Int32.ofNat (lines.filterMap numberedText).length := by
  induction lines generalizing c with
  | nil => simp
  | cons l lines ih =>
    rw [List.foldl_cons, ih]
    by_cases hl : isEmpty l
    · rw [if_pos hl, List.filterMap_cons_none (numberedText_of_isEmpty hl)]
    · rw [if_neg hl, List.filterMap_cons_some (numberedText_of_not_isEmpty hl), List.length_cons,
        Int32.ofNat_add]
      grind

theorem numbered_foldl (lines : List Str) (n : NumsState) :
    numbered (lines.foldl NumsState.step n).out =
      numbered n.out ++ numberUp n.count (lines.filterMap numberedText) := by
  induction lines generalizing n with
  | nil => simp [numberUp]
  | cons l lines ih =>
    rw [List.foldl_cons, ih, NumsState.step]
    by_cases hl : isEmpty l
    · rw [if_pos hl, List.filterMap_cons_none (numberedText_of_isEmpty hl), numbered_append,
        numbered_none, List.append_nil]
    · rw [if_neg hl, List.filterMap_cons_some (numberedText_of_not_isEmpty hl), numbered_append,
        numbered_some, numberUp, List.append_assoc, List.singleton_append]

/-- The texts of the lines that get a number. -/
def numberedTexts (file : Str) : List Str := (pieces newline file).filterMap numberedText

theorem filterMap_numberedText {file : Str} (h : ∀ l ∈ pieces newline file, l.length < peekSize) :
    (fgetsLines peekSize [] file).filterMap numberedText = numberedTexts file :=
  filterMap_fgetsLines rfl numberedText_concat_newline h

theorem getLineCount_eq {file : Str} (h : ∀ l ∈ pieces newline file, l.length < peekSize) :
    getLineCount file = Int32.ofNat (numberedTexts file).length := by
  rw [getLineCount, foldl_count, filterMap_numberedText h]
  simp

theorem numbered_numsLine {file : Str} (h : ∀ l ∈ pieces newline file, l.length < peekSize)
    (count : Int32) : numbered (numsLine file count).out = numberUp count (numberedTexts file) := by
  rw [numsLine, numbered_foldl, filterMap_numberedText h]
  rfl

/-! ## From the end -/

theorem ReverseNums.print_of_blank {r : ReverseNums} (h : r.line.all isspace) :
    r.print = ⟨[], r.number, r.out ++ [⟨none, r.line.reverse ++ [newline]⟩]⟩ := by
  simp [print, h]

theorem ReverseNums.print_of_not_blank {r : ReverseNums} (h : ¬r.line.all isspace) :
    r.print = ⟨[], r.number - 1, r.out ++ [⟨some r.number, r.line.reverse ++ [newline]⟩]⟩ := by
  simp [print, h]

/-- What holds when the pieces `ss` have been printed and `s` has been collected. -/
structure ReverseNums.Done (r : ReverseNums) (total : Int32) (s : Str) (ss : List Str) : Prop where
  line : r.line = s.reverse
  out : numbered r.out = numberDown total (ss.filterMap numberedText)
  number : r.number = total - Int32.ofNat (ss.filterMap numberedText).length

/-- A collected piece gets a number iff `nums_line` gives it one. -/
theorem ReverseNums.Done.print {r : ReverseNums} {total : Int32} {s : Str} {ss : List Str}
    (h : r.Done total s ss) (hs : 0 ∉ s) : r.print.Done total [] (ss ++ [s]) := by
  have hblank : r.line.all isspace = isEmpty s := by
    rw [h.line, List.all_reverse, isEmpty, cString_of_notMem hs]
  by_cases hb : isEmpty s
  · have htexts : (ss ++ [s]).filterMap numberedText = ss.filterMap numberedText := by
      rw [List.filterMap_append, List.filterMap_cons_none (numberedText_of_isEmpty hb),
        List.filterMap_nil, List.append_nil]
    rw [print_of_blank (hblank.trans hb)]
    refine ⟨rfl, ?_, ?_⟩
    · rw [numbered_append, numbered_none, List.append_nil, htexts, h.out]
    · rw [htexts, h.number]
  · have htexts : (ss ++ [s]).filterMap numberedText =
        ss.filterMap numberedText ++ [s.takeWhile (· ≠ newline)] := by
      rw [List.filterMap_append, List.filterMap_cons_some (numberedText_of_not_isEmpty hb),
        List.filterMap_nil, cString_of_notMem hs]
    rw [print_of_not_blank (hblank ▸ hb)]
    refine ⟨rfl, ?_, ?_⟩
    · rw [numbered_append, numbered_some, h.line, List.reverse_reverse, takeWhile_concat_newline,
        htexts, numberDown_append, h.out, h.number]
      rfl
    · rw [htexts, List.length_append, List.length_singleton, Int32.ofNat_add, h.number]
      grind

/-- When the file has been read, the first piece is in `line` and the others
    have been printed. -/
theorem foldl_reverseNums (total : Int32) {file s : Str} {ss : List Str} (hnul : 0 ∉ file)
    (h : pieces newline file = s :: ss) (hlen : ∀ l ∈ s :: ss, l.length < peekSize) :
    (file.reverse.foldl ReverseNums.step ⟨[], total, []⟩).Done total s ss.reverse := by
  induction file generalizing s ss with
  | nil =>
    rw [pieces_nil, List.cons.injEq] at h
    obtain ⟨rfl, rfl⟩ := h
    exact ⟨rfl, rfl, by simp⟩
  | cons b file ih =>
    obtain ⟨t, ts, ht⟩ := exists_pieces newline file
    rw [List.mem_cons, not_or] at hnul
    rw [List.reverse_cons, List.foldl_append, List.foldl_cons, List.foldl_nil]
    by_cases hb : b = newline
    · subst hb
      rw [pieces_cons_self, ht, List.cons.injEq] at h
      obtain ⟨rfl, rfl⟩ := h
      have hread := ih hnul.2 ht fun l hl => hlen l (List.mem_cons_of_mem _ hl)
      have hnt : 0 ∉ t := by
        intro h0
        exact hnul.2 (mem_of_mem_pieces h0 (ht ▸ List.mem_cons_self))
      rw [ReverseNums.step, if_pos rfl, List.reverse_cons]
      exact hread.print hnt
    · rw [pieces_cons_of_ne hb ht, List.cons.injEq] at h
      obtain ⟨rfl, rfl⟩ := h
      rw [List.forall_mem_cons, List.length_cons] at hlen
      have hread := ih hnul.2 ht (List.forall_mem_cons.2 ⟨by omega, hlen.2⟩)
      have hroom : (file.reverse.foldl ReverseNums.step ⟨[], total, []⟩).line.length <
          peekSize - 1 := by
        rw [hread.line, List.length_reverse]
        omega
      rw [ReverseNums.step, if_neg hb, if_pos hroom]
      refine ⟨?_, hread.out, hread.number⟩
      rw [List.reverse_cons, ← hread.line]

theorem numbered_finish {r : ReverseNums} {total : Int32} {s : Str} {ss : List Str}
    (h : r.Done total s ss) (hs : 0 ∉ s) :
    numbered r.finish = numberDown total ((ss ++ [s]).filterMap numberedText) := by
  rw [ReverseNums.finish]
  split
  · exact (h.print hs).out
  · rename_i hlen
    obtain rfl : s = [] := by
      rw [h.line, List.length_reverse] at hlen
      exact List.length_eq_zero_iff.1 (by omega)
    have hnone : numberedText [] = none := rfl
    rw [h.out, List.filterMap_append, List.filterMap_cons_none hnone, List.filterMap_nil,
      List.append_nil]

theorem numbered_reverseWithNums {file : Str} (hnul : 0 ∉ file)
    (hlen : ∀ l ∈ pieces newline file, l.length < peekSize) (total : Int32) :
    (reverseWithNums file total).map numbered =
      some (numberDown total (numberedTexts file).reverse) := by
  obtain ⟨s, ss, h⟩ := exists_pieces newline file
  have hs : 0 ∉ s := by
    intro h0
    exact hnul (mem_of_mem_pieces h0 (h ▸ List.mem_cons_self))
  rw [h] at hlen
  have hread := foldl_reverseNums total hnul h hlen
  rw [reverseWithNums, foldBack_some _ (by decide) (Nat.le_refl _), List.take_length,
    numberedTexts, h, ← List.filterMap_reverse, List.reverse_cons, ← numbered_finish hread hs]
  rfl

/-- **The numbers backwards**: `peek -r -n` prints the numbered lines of `peek -n` from the last to the
    first, so that the first line has the number 1. -/
theorem reverse_with_nums_agrees (file : Str) (hnul : 0 ∉ file)
    (hlen : ∀ l ∈ fileLines file, l.length ≤ 1023) :
    (reverseWithNums file (getLineCount file)).map numbered =
        some (numbered (numsLine file 0).out).reverse ∧
      ∀ p ∈ (numbered (numsLine file 0).out).reverse.getLast?, p.1 = 1 := by
  have hlt : ∀ l ∈ pieces newline file, l.length < peekSize := by
    refine length_lt_of_fileLines ?_
    intro l hl
    exact Nat.lt_succ_of_le (hlen l hl)
  rw [numbered_numsLine hlt]
  constructor
  · rw [numbered_reverseWithNums hnul hlt, getLineCount_eq hlt, reverse_numberUp]
    simp
  · intro p hp
    rw [List.getLast?_reverse] at hp
    cases ht : numberedTexts file with
    | nil =>
      rw [ht] at hp
      cases hp
    | cons t ts =>
      rw [ht, numberUp, List.head?_cons] at hp
      cases hp
      rfl

/-- Blank lines have no number, and the last line needs no line end. -/
theorem reverse_with_nums_agrees_two :
    let file := str "one\n \n\ntwo"
    (0 ∉ file ∧ ∀ l ∈ fileLines file, l.length ≤ 1023) ∧
      (reverseWithNums file (getLineCount file)).map numbered =
        some [(2, str "two"), (1, str "one")] := by
  intro file
  have hnul : 0 ∉ file := by decide
  have hlen : ∀ l ∈ fileLines file, l.length ≤ 1023 := by decide
  refine ⟨⟨hnul, hlen⟩, (reverse_with_nums_agrees file hnul hlen).1.trans ?_⟩
  decide

end CShell
