/-
  Numbers and lines in text, as C's stdio writes and reads them.

  `printInt` is `%lld` of `printf`, `scanInt` that of `scanf`: it skips white
  space, takes an optional sign and the longest run of digits, and clamps the
  number to the range of its type; `strtol` does the same.  `fgetsLines` are the
  strings that calls of `fgets` return one after the other, `cString` is what a
  buffer holds up to a NUL, and `strcmp` compares such strings.

  * `scanInt_printInt`: a number of the range is read back, and what follows it
    is left, if that does not start with a digit;
  * `fgetsLines_flatten`: lines that fit in the buffer are read back.
-/
import Mathlib.Data.List.TakeWhile
import Mathlib.Order.Lattice
import Mathlib.Data.Int.Order.Basic
import Mathlib.Algebra.Group.Int.Defs
import Mathlib.Algebra.Group.Nat.Defs

namespace Lib

/-! ## Digits -/

/-- `isdigit`. -/
def isDigit (b : UInt8) : Bool := 48 ≤ b && b ≤ 57

/-- White space, in the "C" locale. -/
def isspace (b : UInt8) : Bool := b == 32 || (9 ≤ b && b ≤ 13)

theorem isspace_eq_false_of_isDigit {b : UInt8} (h : isDigit b) : isspace b = false := by
  have := b.toNat_lt
  simp only [isDigit, isspace, Bool.and_eq_true, decide_eq_true_eq, UInt8.le_iff_toNat_le,
    Bool.or_eq_false_iff, Bool.and_eq_false_iff, beq_eq_false_iff_ne, decide_eq_false_iff_not,
    ne_eq, ← UInt8.toNat_inj] at h ⊢
  simp at h ⊢
  omega

/-- The number that digits stand for. -/
def digitsValue (ds : List UInt8) : ℕ := ds.foldl (fun n d => 10 * n + (d.toNat - 48)) 0

/-- The decimal digits of a number. -/
def decimalDigits (n : ℕ) : List UInt8 := (Nat.toDigits 10 n).map fun c => UInt8.ofNat c.toNat

theorem decimalDigits_ne_nil (n : ℕ) : decimalDigits n ≠ [] := by
  simp [decimalDigits]

theorem length_decimalDigits_le {n k : ℕ} (hk : 0 < k) (h : n < 10 ^ k) :
    (decimalDigits n).length ≤ k := by
  rw [decimalDigits, List.length_map, Nat.length_toDigits_le_iff (by decide) hk]
  exact h

/-- A digit as a byte. -/
theorem toNat_of_isDigit {c : Char} (h : c.isDigit) :
    (UInt8.ofNat c.toNat).toNat = c.toNat ∧ 48 ≤ c.toNat ∧ c.toNat ≤ 57 := by
  simp only [Char.isDigit, Bool.and_eq_true, decide_eq_true_eq, UInt32.le_iff_toNat_le] at h
  obtain ⟨h₁, h₂⟩ := h
  have h₁ : 48 ≤ c.toNat := h₁
  have h₂ : c.toNat ≤ 57 := h₂
  exact ⟨UInt8.toNat_ofNat_of_lt (by simp [UInt8.size]; omega), h₁, h₂⟩

theorem isDigit_of_mem_decimalDigits {n : ℕ} {b : UInt8} (h : b ∈ decimalDigits n) :
    isDigit b := by
  obtain ⟨c, hc, rfl⟩ := List.mem_map.1 h
  obtain ⟨heq, h₁, h₂⟩ :=
    toNat_of_isDigit (Nat.isDigit_of_mem_toDigits (by decide) (by decide) hc)
  simp only [isDigit, Bool.and_eq_true, decide_eq_true_eq, UInt8.le_iff_toNat_le, heq]
  exact ⟨h₁, h₂⟩

theorem foldl_digits {cs : List Char} (h : ∀ c ∈ cs, c.isDigit) (n : ℕ) :
    (cs.map fun c => UInt8.ofNat c.toNat).foldl (fun n d => 10 * n + (d.toNat - 48)) n =
      Nat.ofDigitChars 10 cs n := by
  induction cs generalizing n with
  | nil => rfl
  | cons c cs ih =>
    rw [List.forall_mem_cons] at h
    rw [List.map_cons, List.foldl_cons, Nat.ofDigitChars_cons, (toNat_of_isDigit h.1).1, ih h.2]
    rfl

theorem digitsValue_decimalDigits (n : ℕ) : digitsValue (decimalDigits n) = n := by
  rw [digitsValue, decimalDigits,
    foldl_digits fun c hc => Nat.isDigit_of_mem_toDigits (by decide) (by decide) hc]
  exact Nat.ofDigitChars_toDigits (by decide) (by decide)

/-! ## Integers -/

/-- `%lld` of `printf`. -/
def printInt (z : ℤ) : List UInt8 :=
  if z < 0 then 45 :: decimalDigits z.natAbs else decimalDigits z.natAbs

/-- The sign before the digits: whether it is a minus, and what follows. -/
def scanSign : List UInt8 → Bool × List UInt8
  | 45 :: s => (true, s)
  | 43 :: s => (false, s)
  | s => (false, s)

/-- `%lld` of `scanf`, for a type with the given bounds: the number and the
    rest of the text, or `none` where there is no number. -/
def scanInt (lo hi : ℤ) (s : List UInt8) : Option (ℤ × List UInt8) :=
  let (neg, s) := scanSign (s.dropWhile isspace)
  let ds := s.takeWhile isDigit
  if ds = [] then none
  else
    let z : ℤ := if neg then -digitsValue ds else digitsValue ds
    some (max lo (min hi z), s.dropWhile isDigit)

/-- The text does not go on with a digit. -/
def EndsNumber (s : List UInt8) : Prop := ∀ b ∈ s.head?, isDigit b = false

theorem takeWhile_isDigit {n : ℕ} {s : List UInt8} (h : EndsNumber s) :
    (decimalDigits n ++ s).takeWhile isDigit = decimalDigits n := by
  rw [List.takeWhile_append_of_pos fun b hb => isDigit_of_mem_decimalDigits hb]
  cases s with
  | nil => simp
  | cons b s => simp [h b rfl]

theorem dropWhile_isDigit {n : ℕ} {s : List UInt8} (h : EndsNumber s) :
    (decimalDigits n ++ s).dropWhile isDigit = s := by
  rw [List.dropWhile_append_of_pos fun b hb => isDigit_of_mem_decimalDigits hb]
  cases s with
  | nil => rfl
  | cons b s => simp [h b rfl]

/-- The digits start with a digit: no white space and no sign. -/
theorem exists_cons_decimalDigits (n : ℕ) :
    ∃ b s, decimalDigits n = b :: s ∧ isDigit b := by
  rcases h : decimalDigits n with _ | ⟨b, s⟩
  · exact absurd h (decimalDigits_ne_nil n)
  · exact ⟨b, s, rfl, isDigit_of_mem_decimalDigits (h ▸ List.mem_cons_self)⟩

theorem scanSign_of_isDigit {b : UInt8} {s : List UInt8} (h : isDigit b) :
    scanSign (b :: s) = (false, b :: s) := by
  unfold scanSign
  split
  · rename_i heq; cases heq; cases h
  · rename_i heq; cases heq; cases h
  · rfl

theorem scanSign_printInt (z : ℤ) (s : List UInt8) :
    scanSign ((printInt z ++ s).dropWhile isspace) =
      (decide (z < 0), decimalDigits z.natAbs ++ s) := by
  unfold printInt
  split
  · rename_i hz
    rw [List.cons_append, List.dropWhile_cons_of_neg (by decide), scanSign, decide_eq_true hz]
  · rename_i hz
    obtain ⟨b, t, ht, hb⟩ := exists_cons_decimalDigits z.natAbs
    rw [ht, List.cons_append, List.dropWhile_cons_of_neg (by simp [isspace_eq_false_of_isDigit hb]),
      scanSign_of_isDigit hb, decide_eq_false hz]

/-- **A number that is printed is read back.** -/
theorem scanInt_printInt {lo hi z : ℤ} {s : List UInt8} (hlo : lo ≤ z) (hhi : z ≤ hi)
    (hs : EndsNumber s) : scanInt lo hi (printInt z ++ s) = some (z, s) := by
  have hz : (if decide (z < 0) then -(z.natAbs : ℤ) else z.natAbs) = z := by
    by_cases h : z < 0
    · rw [decide_eq_true h, if_pos rfl]
      omega
    · rw [decide_eq_false h, if_neg (by decide)]
      omega
  simp only [scanInt, scanSign_printInt, takeWhile_isDigit hs, dropWhile_isDigit hs,
    if_neg (decimalDigits_ne_nil _), digitsValue_decimalDigits, hz, min_eq_right hhi,
    max_eq_right hlo]

/-- A text of digits is read as a whole. -/
theorem scanInt_digits {lo hi : ℤ} {s : List UInt8} (hne : s ≠ []) (hd : ∀ b ∈ s, isDigit b) :
    scanInt lo hi s = some (max lo (min hi (digitsValue s)), []) := by
  obtain ⟨b, t, rfl⟩ := List.exists_cons_of_ne_nil hne
  have hb := hd b List.mem_cons_self
  have hspace : ¬isspace b = true := by simp [isspace_eq_false_of_isDigit hb]
  simp only [scanInt, List.dropWhile_cons_of_neg hspace, scanSign_of_isDigit hb,
    List.takeWhile_eq_self_iff.2 hd, List.dropWhile_eq_nil_iff.2 hd]
  rfl

/-- `strtol` in base 10, with a `long` of 64 bits: the number, and what is left of the text. -/
def strtol (s : List UInt8) : ℤ × List UInt8 := (scanInt (-2 ^ 63) (2 ^ 63 - 1) s).getD (0, s)

/-- The greatest `long` up to `n`. -/
def saturate (n : ℕ) : ℤ := min (2 ^ 63 - 1) (n : ℤ)

theorem strtol_digits {s : List UInt8} (hne : s ≠ []) (hd : ∀ b ∈ s, isDigit b) :
    strtol s = (saturate (digitsValue s), []) := by
  have hlo : -2 ^ 63 ≤ saturate (digitsValue s) := by
    unfold saturate
    omega
  rw [strtol, scanInt_digits hne hd, Option.getD_some]
  exact congrArg (·, []) (max_eq_right hlo)

theorem scanInt_mem {lo hi z : ℤ} {s t : List UInt8} (hle : lo ≤ hi)
    (h : scanInt lo hi s = some (z, t)) : lo ≤ z ∧ z ≤ hi := by
  unfold scanInt at h
  simp only at h
  split at h
  · cases h
  · obtain ⟨rfl, -⟩ := Prod.mk.inj (Option.some.inj h)
    exact ⟨le_max_left _ _, max_le hle (min_le_left _ _)⟩

/-- Leading white space is skipped. -/
theorem scanInt_cons_of_isspace {lo hi : ℤ} {b : UInt8} {s : List UInt8} (h : isspace b) :
    scanInt lo hi (b :: s) = scanInt lo hi s := by
  rw [scanInt, List.dropWhile_cons_of_pos h, scanInt]

theorem scanSign_suffix (s : List UInt8) : (scanSign s).2 <:+ s := by
  unfold scanSign
  split
  · exact List.suffix_cons _ _
  · exact List.suffix_cons _ _
  · exact List.suffix_rfl

/-- What is left of the text. -/
theorem suffix_of_scanInt {lo hi z : ℤ} {s t : List UInt8} (h : scanInt lo hi s = some (z, t)) :
    t <:+ s := by
  simp only [scanInt] at h
  split at h
  · cases h
  · obtain ⟨-, rfl⟩ := Prod.mk.inj (Option.some.inj h)
    exact ((List.dropWhile_suffix _).trans (scanSign_suffix _)).trans (List.dropWhile_suffix _)

theorem length_printInt_le {z : ℤ} {k : ℕ} (hk : 0 < k) (h : z.natAbs < 10 ^ k) :
    (printInt z).length ≤ k + 1 := by
  have hd := length_decimalDigits_le hk h
  unfold printInt
  split
  · simpa using hd
  · omega

/-- The bytes of a number: none is a line end or NUL. -/
theorem of_mem_printInt {z : ℤ} {b : UInt8} (h : b ∈ printInt z) : b = 45 ∨ isDigit b := by
  unfold printInt at h
  split at h
  · rcases List.mem_cons.1 h with rfl | h
    · exact .inl rfl
    · exact .inr (isDigit_of_mem_decimalDigits h)
  · exact .inr (isDigit_of_mem_decimalDigits h)

theorem not_mem_printInt {z : ℤ} {b : UInt8} (hb : b ≠ 45) (hd : isDigit b = false) :
    b ∉ printInt z := by
  intro h
  rcases of_mem_printInt h with h | h
  · exact hb h
  · rw [hd] at h; cases h

/-! ## Lines -/

/-- The line end. -/
def newline : UInt8 := 10

/-- What calls of `fgets` with a buffer of `size` bytes return for a file, one
    after the other; `line` is what the present one has read. -/
def fgetsLines (size : ℕ) (line : List UInt8) : List UInt8 → List (List UInt8)
  | [] => if line = [] then [] else [line]
  | b :: s =>
    let line := line ++ [b]
    if b = newline ∨ size ≤ line.length + 1 then line :: fgetsLines size [] s
    else fgetsLines size line s

/-- A line that fits is read as a whole. -/
theorem fgetsLines_append {size : ℕ} {l : List UInt8} (hl : newline ∉ l) (s : List UInt8) :
    ∀ {line : List UInt8}, line.length + l.length + 2 ≤ size →
      fgetsLines size line (l ++ newline :: s) = (line ++ l ++ [newline]) :: fgetsLines size [] s := by
  induction l with
  | nil =>
    intro line _
    simp [fgetsLines]
  | cons b l ih =>
    intro line hsize
    rw [List.mem_cons, not_or] at hl
    rw [List.length_cons] at hsize
    have hb : ¬(b = newline ∨ size ≤ (line ++ [b]).length + 1) := by
      rw [List.length_append, List.length_singleton]
      rintro (h | h)
      · exact hl.1 h.symm
      · omega
    rw [List.cons_append, fgetsLines, if_neg hb, ih hl.2 (by simp; omega)]
    simp

/-- A text that fits is read in lines no longer than it, and what follows it
    is read from its start. -/
theorem mem_fgetsLines_append {size : ℕ} {p s l : List UInt8} {line : List UInt8}
    (hsize : line.length + p.length + 2 ≤ size)
    (hl : l ∈ fgetsLines size line (p ++ newline :: s)) :
    l.length ≤ line.length + p.length + 1 ∨ l ∈ fgetsLines size [] s := by
  induction p generalizing line with
  | nil =>
    simp only [List.nil_append, fgetsLines, true_or, if_true, List.mem_cons] at hl
    rcases hl with rfl | hl
    · exact .inl (by simp)
    · exact .inr hl
  | cons b p ih =>
    rw [List.length_cons] at hsize
    rw [List.cons_append, fgetsLines] at hl
    simp only [List.length_append, List.length_singleton] at hl
    split at hl
    · rcases List.mem_cons.1 hl with rfl | hl
      · exact .inl (by simp)
      · refine (ih (by simp; omega) hl).imp_left fun h => ?_
        simp at h ⊢
        omega
    · refine (ih (by simp; omega) hl).imp_left fun h => ?_
      simp at h ⊢
      omega

/-- **Lines that fit are read back.** -/
theorem fgetsLines_flatten {size : ℕ} {ls : List (List UInt8)}
    (h : ∀ l ∈ ls, newline ∉ l ∧ l.length + 2 ≤ size) :
    fgetsLines size [] (ls.map (· ++ [newline])).flatten = ls.map (· ++ [newline]) := by
  induction ls with
  | nil => rfl
  | cons l ls ih =>
    rw [List.forall_mem_cons] at h
    rw [List.map_cons, List.flatten_cons, List.append_assoc, List.singleton_append,
      fgetsLines_append h.1.1 _ (by simpa using h.1.2), ih h.2]
    rfl

/-! ## C strings -/

/-- What the string functions see of the bytes in a buffer. -/
def cString (s : List UInt8) : List UInt8 := s.takeWhile (· ≠ 0)

theorem cString_of_notMem {s : List UInt8} (h : 0 ∉ s) : cString s = s := by
  rw [cString, List.takeWhile_eq_self_iff]
  intro b hb
  have hne : b ≠ 0 := by
    rintro rfl
    exact h hb
  exact decide_eq_true hne

theorem cString_append_of_mem {s : List UInt8} (h : 0 ∈ s) (t : List UInt8) :
    cString (s ++ t) = cString s := by
  induction s with
  | nil => cases h
  | cons b s ih =>
    by_cases hb : b = 0
    · simp [cString, hb]
    · have hs : 0 ∈ s := (List.mem_cons.1 h).resolve_left (Ne.symm hb)
      rw [List.cons_append, cString, cString, List.takeWhile_cons_of_pos (by simpa using hb),
        List.takeWhile_cons_of_pos (by simpa using hb)]
      exact congrArg (b :: ·) (ih hs)

/-- `strchr`: the string from the first `c` on. -/
def strchr (s : List UInt8) (c : UInt8) : Option (List UInt8) :=
  if c ∈ cString s then some ((cString s).dropWhile (· ≠ c)) else none

/-- `strcmp`, of which only the sign is specified. -/
def strcmp : List UInt8 → List UInt8 → ℤ
  | [], [] => 0
  | [], _ :: _ => -1
  | _ :: _, [] => 1
  | a :: s, b :: t => if a = b then strcmp s t else (a.toNat : ℤ) - b.toNat

theorem toNat_ne_of_ne {a b : UInt8} (h : a ≠ b) : a.toNat ≠ b.toNat := mt UInt8.toNat_inj.1 h

theorem strcmp_self (s : List UInt8) : strcmp s s = 0 := by
  induction s with
  | nil => rfl
  | cons a s ih => rw [strcmp, if_pos rfl, ih]

theorem eq_of_strcmp {s t : List UInt8} (h : strcmp s t = 0) : s = t := by
  induction s generalizing t with
  | nil =>
    cases t with
    | nil => rfl
    | cons b t => cases h
  | cons a s ih =>
    cases t with
    | nil => cases h
    | cons b t =>
      rw [strcmp] at h
      split at h
      · rename_i hab
        rw [hab, ih h]
      · rename_i hab
        have := toNat_ne_of_ne hab
        omega

theorem strcmp_neg_iff (s t : List UInt8) : strcmp s t < 0 ↔ 0 < strcmp t s := by
  induction s generalizing t with
  | nil => cases t <;> simp [strcmp]
  | cons a s ih =>
    cases t with
    | nil => simp [strcmp]
    | cons b t =>
      rw [strcmp, strcmp]
      by_cases hab : a = b
      · rw [if_pos hab, if_pos hab.symm, ih]
      · rw [if_neg hab, if_neg (Ne.symm hab)]
        omega

theorem strcmp_trans {s t u : List UInt8} (hst : strcmp s t ≤ 0) (htu : strcmp t u ≤ 0) :
    strcmp s u ≤ 0 := by
  induction s generalizing t u with
  | nil => cases u <;> simp [strcmp]
  | cons a s ih =>
    cases t with
    | nil => simp [strcmp] at hst
    | cons b t =>
      cases u with
      | nil => simp [strcmp] at htu
      | cons c u =>
        rw [strcmp] at hst htu ⊢
        by_cases hab : a = b
        · subst hab
          rw [if_pos rfl] at hst
          by_cases hac : a = c
          · rw [if_pos hac] at htu ⊢
            exact ih hst htu
          · rw [if_neg hac] at htu ⊢
            exact htu
        · rw [if_neg hab] at hst
          by_cases hbc : b = c
          · subst hbc
            rwa [if_neg hab]
          · have hne := toNat_ne_of_ne hab
            rw [if_neg hbc] at htu
            have hac : a ≠ c := by
              rintro rfl
              omega
            rw [if_neg hac]
            omega

end Lib
