/-
  Reading a file from its end.

  `foldBack` is the loop that reads a file backwards in blocks and goes through
  each block from its end; `foldBack_eq` says that the blocks do not matter.
  `pieces` are the parts of a text between occurrences of a separator, with
  the empty ones; `filterMap_fgetsLines` says that `fgets`, which reads a file
  from its start, gives these.
-/
import CShell.Lib.Text
import Mathlib.Data.List.Basic
import Mathlib.Data.Nat.Notation

namespace Lib

/-! ## Blocks -/

section
variable {α σ : Type} (size : ℕ) (f : σ → α → Option σ) (file : List α)

/-- The loop that reads blocks of at most `size` elements, the next one up to
    `pos`, and takes their elements one by one, the last one first.  It makes
    at most `fuel` rounds. -/
def foldBack : ℕ → ℕ → σ → Option σ
  | 0, pos, s => if pos = 0 then some s else none
  | fuel + 1, pos, s =>
    if pos = 0 then some s
    else
      -- 0 if there is less than a block left
      let start := pos - size
      let buffer := (file.drop start).take (pos - start)
      (buffer.reverse.foldlM f s).bind (foldBack fuel start)

/-- **Blocks do not matter.** -/
theorem foldBack_eq {size} {fuel pos : ℕ} (hsize : 0 < size) (hfuel : pos ≤ fuel) (s : σ) :
    foldBack size f file fuel pos s = (file.take pos).reverse.foldlM f s := by
  induction fuel generalizing pos s with
  | zero =>
    obtain rfl : pos = 0 := by omega
    simp [foldBack]
  | succ fuel ih =>
    rw [foldBack]
    split
    · rename_i hpos
      simp [hpos]
    · have hsplit : file.take pos =
          file.take (pos - size) ++ (file.drop (pos - size)).take (pos - (pos - size)) := by
        rw [← List.take_add]
        congr 1
        omega
      have hstart : pos - size ≤ fuel := by omega
      rw [hsplit, List.reverse_append, List.foldlM_append]
      exact congrArg (Option.bind _) (funext fun s => ih hstart s)

/-- With steps that do not fail. -/
theorem foldBack_some {size} {fuel pos : ℕ} (hsize : 0 < size) (hfuel : pos ≤ fuel)
    (g : σ → α → σ) (s : σ) :
    foldBack size (fun s a => some (g s a)) file fuel pos s =
      some ((file.take pos).reverse.foldl g s) :=
  (foldBack_eq _ file hsize hfuel s).trans List.foldlM_pure

end

/-! ## Pieces -/

section
variable {α : Type} [DecidableEq α] {x b : α} {l s : List α} {ss : List (List α)}

/-- What stands between the occurrences of `x`. -/
def pieces (x : α) (l : List α) : List (List α) := l.splitOnP (· = x)

theorem pieces_nil : pieces x [] = [[]] := rfl

theorem pieces_cons_self (x : α) (l : List α) : pieces x (x :: l) = [] :: pieces x l := by
  rw [pieces, List.splitOnP_cons_eq_if_modifyHead]
  simp [pieces]

theorem pieces_cons_of_ne (hb : b ≠ x) (h : pieces x l = s :: ss) :
    pieces x (b :: l) = (b :: s) :: ss := by
  rw [pieces] at h
  rw [pieces, List.splitOnP_cons_eq_if_modifyHead, h]
  simp [hb]

theorem exists_pieces (x : α) (l : List α) : ∃ s ss, pieces x l = s :: ss := by
  induction l with
  | nil => exact ⟨[], [], rfl⟩
  | cons b l ih =>
    by_cases hb : b = x
    · subst hb
      exact ⟨[], _, pieces_cons_self b l⟩
    · obtain ⟨s, ss, h⟩ := ih
      exact ⟨b :: s, ss, pieces_cons_of_ne hb h⟩

/-- The first piece ends at the first separator. -/
theorem pieces_append (hs : x ∉ s) (l : List α) : pieces x (s ++ x :: l) = s :: pieces x l := by
  induction s with
  | nil => exact pieces_cons_self x l
  | cons b s ih =>
    rw [List.mem_cons, not_or] at hs
    exact pieces_cons_of_ne (Ne.symm hs.1) (ih hs.2)

/-- A text without separators is one piece. -/
theorem pieces_of_notMem (hs : x ∉ s) : pieces x s = [s] := by
  induction s with
  | nil => rfl
  | cons b s ih =>
    rw [List.mem_cons, not_or] at hs
    exact pieces_cons_of_ne (Ne.symm hs.1) (ih hs.2)

/-- A text of lines with a separator at the end of each. -/
theorem pieces_flatten (h : ∀ s ∈ ss, x ∉ s) :
    pieces x (ss.map (· ++ [x])).flatten = ss ++ [[]] := by
  induction ss with
  | nil => rfl
  | cons s ss ih =>
    rw [List.forall_mem_cons] at h
    rw [List.map_cons, List.flatten_cons, List.append_assoc, List.singleton_append,
      pieces_append h.1, ih h.2, List.cons_append]

/-- What is not a separator is in a piece. -/
theorem exists_mem_pieces (hm : b ∈ l) (hb : b ≠ x) : ∃ s ∈ pieces x l, b ∈ s := by
  induction l with
  | nil => cases hm
  | cons c l ih =>
    obtain ⟨s, ss, h⟩ := exists_pieces x l
    by_cases hc : c = x
    · subst hc
      obtain ⟨t, ht, hbt⟩ := ih ((List.mem_cons.1 hm).resolve_left hb)
      exact ⟨t, by rw [pieces_cons_self]; exact List.mem_cons_of_mem _ ht, hbt⟩
    · rw [pieces_cons_of_ne hc h]
      rcases List.mem_cons.1 hm with rfl | hm
      · exact ⟨_, List.mem_cons_self, List.mem_cons_self⟩
      · obtain ⟨t, ht, hbt⟩ := ih hm
        rw [h] at ht
        rcases List.mem_cons.1 ht with rfl | ht
        · exact ⟨_, List.mem_cons_self, List.mem_cons_of_mem _ hbt⟩
        · exact ⟨t, List.mem_cons_of_mem _ ht, hbt⟩

theorem mem_of_mem_pieces (hb : b ∈ s) (hs : s ∈ pieces x l) : b ∈ l := by
  induction l generalizing s with
  | nil =>
    rw [pieces_nil, List.mem_singleton] at hs
    rwa [hs] at hb
  | cons c l ih =>
    obtain ⟨t, ts, h⟩ := exists_pieces x l
    by_cases hc : c = x
    · subst hc
      rw [pieces_cons_self, List.mem_cons] at hs
      rcases hs with rfl | hs
      · cases hb
      · exact List.mem_cons_of_mem _ (ih hb hs)
    · rw [pieces_cons_of_ne hc h, List.mem_cons] at hs
      rw [h] at ih
      rcases hs with rfl | hs
      · rcases List.mem_cons.1 hb with rfl | hb
        · exact List.mem_cons_self
        · exact List.mem_cons_of_mem _ (ih hb List.mem_cons_self)
      · exact List.mem_cons_of_mem _ (ih hb (List.mem_cons_of_mem _ hs))

/-- A text of separators has only empty pieces. -/
theorem eq_nil_of_mem_pieces (h : ∀ b ∈ l, b = x) (hs : s ∈ pieces x l) : s = [] := by
  induction l with
  | nil => simpa [pieces_nil] using hs
  | cons b l ih =>
    rw [List.forall_mem_cons] at h
    obtain ⟨rfl, h⟩ := h
    rw [pieces_cons_self, List.mem_cons] at hs
    exact hs.elim id (ih h)

theorem head?_pieces (b : α) (l : List α) :
    (pieces x (b :: l)).head? = some [] ↔ b = x := by
  by_cases hb : b = x
  · subst hb
    simp [pieces_cons_self]
  · obtain ⟨s, ss, h⟩ := exists_pieces x l
    simp [pieces_cons_of_ne hb h, hb]

theorem pieces_concat_self (x : α) (l : List α) : pieces x (l ++ [x]) = pieces x l ++ [[]] := by
  rw [pieces, List.splitOnP_append_cons _ _ (by simp)]
  rfl

theorem getLast?_pieces_concat_of_ne (hb : b ≠ x) (l : List α) :
    ∃ t, (pieces x (l ++ [b])).getLast? = some (t ++ [b]) := by
  induction l with
  | nil => exact ⟨[], by rw [List.nil_append, pieces_cons_of_ne hb pieces_nil]; rfl⟩
  | cons c l ih =>
    obtain ⟨t, ht⟩ := ih
    obtain ⟨s, ss, h⟩ := exists_pieces x (l ++ [b])
    rw [h] at ht
    rw [List.cons_append]
    by_cases hc : c = x
    · subst hc
      rw [pieces_cons_self, h, List.getLast?_cons_cons]
      exact ⟨t, ht⟩
    · rw [pieces_cons_of_ne hc h]
      rcases ss with _ | ⟨s', ss⟩
      · obtain rfl : s = t ++ [b] := by simpa using ht
        exact ⟨c :: t, rfl⟩
      · exact ⟨t, by simpa using ht⟩

/-- The last piece is empty iff the text ends with a separator. -/
theorem getLast?_pieces (hl : l ≠ []) :
    (pieces x l).getLast? = some [] ↔ l.getLast? = some x := by
  rcases List.eq_nil_or_concat l with rfl | ⟨l, b, rfl⟩
  · exact absurd rfl hl
  by_cases hb : b = x
  · subst hb
    simp [pieces_concat_self]
  · obtain ⟨t, ht⟩ := getLast?_pieces_concat_of_ne hb l
    simp [ht, hb]

end

/-! ## From the start -/

/-- What is read into `line` is its part of the first piece. -/
theorem filterMap_fgetsLines_pieces {β : Type} {f : List UInt8 → Option β} {size : ℕ}
    (hnil : f [] = none) (hend : ∀ l, f (l ++ [newline]) = f l) {file s line : List UInt8}
    {ss : List (List UInt8)} (h : pieces newline file = s :: ss)
    (hs : line.length + s.length < size) (hlen : ∀ l ∈ ss, l.length < size) :
    (fgetsLines size line file).filterMap f = ((line ++ s) :: ss).filterMap f := by
  induction file generalizing line s ss with
  | nil =>
    rw [pieces_nil, List.cons.injEq] at h
    obtain ⟨rfl, rfl⟩ := h
    rw [fgetsLines, List.append_nil]
    split
    · rename_i hline
      simp [hline, hnil]
    · rfl
  | cons b file ih =>
    obtain ⟨t, ts, ht⟩ := exists_pieces newline file
    by_cases hb : b = newline
    · subst hb
      rw [pieces_cons_self, ht, List.cons.injEq] at h
      obtain ⟨rfl, rfl⟩ := h
      rw [List.forall_mem_cons] at hlen
      have hsize : ([] : List UInt8).length + t.length < size := by simpa using hlen.1
      rw [fgetsLines, if_pos (.inl rfl), List.filterMap_cons, ih ht hsize hlen.2, hend,
        List.append_nil]
      rfl
    · rw [pieces_cons_of_ne hb ht, List.cons.injEq] at h
      obtain ⟨rfl, rfl⟩ := h
      rw [List.length_cons] at hs
      rw [fgetsLines]
      split
      · -- the buffer is full with the last byte of the piece: the next call
        -- gets the line end alone
        rename_i hfull
        have ht0 : t = [] := by
          rw [or_iff_right hb, List.length_append, List.length_singleton] at hfull
          exact List.length_eq_zero_iff.1 (by omega)
        subst ht0
        have hsize : ([] : List UInt8).length + ([] : List UInt8).length < size := by
          simp only [List.length_nil]
          omega
        rw [List.filterMap_cons, ih ht hsize hlen, List.nil_append,
          List.filterMap_cons_none hnil, List.filterMap_cons]
      · have hsize : (line ++ [b]).length + t.length < size := by
          rw [List.length_append, List.length_singleton]
          omega
        rw [ih ht hsize hlen, List.append_assoc, List.singleton_append]

/-- **`fgets` reads pieces.**  Lines of up to `size - 1` bytes are read, whatever
    `f` takes from them, if it does not look at the line end. -/
theorem filterMap_fgetsLines {β : Type} {f : List UInt8 → Option β} {size : ℕ}
    (hnil : f [] = none) (hend : ∀ l, f (l ++ [newline]) = f l) {file : List UInt8}
    (hlen : ∀ l ∈ pieces newline file, l.length < size) :
    (fgetsLines size [] file).filterMap f = (pieces newline file).filterMap f := by
  obtain ⟨s, ss, h⟩ := exists_pieces newline file
  rw [h, List.forall_mem_cons] at hlen
  have hs : ([] : List UInt8).length + s.length < size := by simpa using hlen.1
  rw [filterMap_fgetsLines_pieces hnil hend h hs hlen.2, h, List.nil_append]

/-- A list that can be turned by one element has only that element. -/
theorem cons_eq_concat_iff {α : Type} {x : α} {l : List α} :
    x :: l = l ++ [x] ↔ ∀ b ∈ l, b = x := by
  induction l with
  | nil => simp
  | cons b l ih =>
    rw [List.cons_append, List.cons.injEq, List.forall_mem_cons, ← ih]
    constructor
    · rintro ⟨rfl, h⟩
      exact ⟨rfl, h⟩
    · rintro ⟨rfl, h⟩
      exact ⟨rfl, h⟩

end Lib
