/-
  C-Shell formalization — the lexer as a one-pass automaton.

  The lexer of the README reads a line character by character: between words,
  in a word, after a backslash, in single or double quotes, or after a
  backslash in double quotes (`Mode`).  `scan` runs this automaton; it is the
  specification of `lexing`.

  * `lexing_scan`: `lexing` computes the tokens of `scan` and fails iff the
    line ends in an open quotation, for every line without a NUL whose words
    fit the buffer; no read or write leaves its bounds;
  * `length_scan`, `fits_scan`: how many tokens there are, and when they fit.
-/
import CShell.Shell.Lexer
import Mathlib.Tactic.SplitIfs

namespace CShell

open Lib

/-! ## The automaton -/

/-- The states of the automaton, with the word read so far.  Between words it
    remembers whether it has just read a `>`, which another one makes a `>>`. -/
inductive Mode where
  | between (gt : Bool)
  | inWord (w : Str)
  | afterBackslash (w : Str)
  | inSingle (w : Str)
  | inDouble (w : Str)
  | afterBackslashInDouble (w : Str)
  deriving DecidableEq, Repr

namespace Mode

/-- The word read so far. -/
def word : Mode → Str
  | between _ => []
  | inWord w | afterBackslash w | inSingle w | inDouble w | afterBackslashInDouble w => w

/-- The operator `>` that is held back. -/
def held : Mode → List Token
  | between true => [.op .gt]
  | _ => []

/-- The token that is complete when the line ends, or a blank or an operator
    follows. -/
def flush : Mode → List Token
  | inWord w => [.word w]
  | m => m.held

/-- A line that ends here has an unfinished quotation. -/
def isOpen : Mode → Bool
  | between _ | inWord _ => false
  | _ => true

/-- One character outside a quotation: the next state and the tokens it
    completes. -/
def nextPlain (m : Mode) (c : UInt8) : Mode × List Token :=
  if isSpace c then (between false, m.flush)
  else if c = byte '|' then (between false, m.flush ++ [.op .pipe])
  else if c = byte '&' then (between false, m.flush ++ [.op .amp])
  else if c = byte ';' then (between false, m.flush ++ [.op .semi])
  else if c = byte '<' then (between false, m.flush ++ [.op .lt])
  else if c = byte '>' then
    if m = between true then (between false, [.op .gtgt]) else (between true, m.flush)
  else if c = backslash then (afterBackslash m.word, m.held)
  else if c = doubleQuoteMark then (inDouble m.word, m.held)
  else if c = singleQuoteMark then (inSingle m.word, m.held)
  else (inWord (m.word ++ [c]), m.held)

/-- One character: the next state and the tokens it completes. -/
def next : Mode → UInt8 → Mode × List Token
  | between gt, c => (between gt).nextPlain c
  | inWord w, c => (inWord w).nextPlain c
  | afterBackslash w, c => (inWord (w ++ [c]), [])
  | inSingle w, c => if c = singleQuoteMark then (inWord w, []) else (inSingle (w ++ [c]), [])
  | inDouble w, c =>
    if c = doubleQuoteMark then (inWord w, [])
    else if c = backslash then (afterBackslashInDouble w, [])
    else (inDouble (w ++ [c]), [])
  | afterBackslashInDouble w, c =>
    if c = doubleQuoteMark ∨ c = backslash then (inDouble (w ++ [c]), [])
    else (inDouble (w ++ [backslash, c]), [])

end Mode

/-- Prepend tokens to the output of the automaton. -/
def emit (ts : List Token) (r : Mode × List Token) : Mode × List Token := (r.1, ts ++ r.2)

/-- The automaton: its final state on a line and the tokens it reads. -/
def scan : Mode → Str → Mode × List Token
  | m, [] => (m, m.flush)
  | m, c :: cs => emit (m.next c).2 (scan (m.next c).1 cs)

/-- Every token of the output, and a word left unfinished, fits the buffer of
    the lexer with its terminator. -/
def Fits (r : Mode × List Token) : Prop :=
  (∀ t ∈ r.2, t.value.length < wordSize) ∧ r.1.word.length < wordSize

/-- The words of a line are shorter than the buffer. -/
def WordsFit (line : Str) : Prop := Fits (scan (.between false) line)

instance (line : Str) : Decidable (WordsFit line) :=
  inferInstanceAs (Decidable ((∀ t ∈ (scan (.between false) line).2, t.value.length < wordSize) ∧
    (scan (.between false) line).1.word.length < wordSize))

theorem emit_nil (r : Mode × List Token) : emit [] r = r := rfl

theorem emit_emit (ts us : List Token) (r : Mode × List Token) :
    emit ts (emit us r) = emit (ts ++ us) r := by simp [emit]

theorem Fits.of_emit {ts : List Token} {r : Mode × List Token} (h : Fits (emit ts r)) : Fits r :=
  ⟨fun t ht => h.1 t (List.mem_append_right _ ht), h.2⟩

namespace Mode

/-- Outside a quotation, a character that belongs to a word. -/
theorem next_of_not_stop {m : Mode} {c : UInt8} (hm : m.isOpen = false)
    (hc : ¬(isSpace c || isSpecial c)) :
    m.next c =
      if c = backslash then (afterBackslash m.word, m.held)
      else if c = doubleQuoteMark then (inDouble m.word, m.held)
      else if c = singleQuoteMark then (inSingle m.word, m.held)
      else (inWord (m.word ++ [c]), m.held) := by
  simp only [isSpecial, Bool.or_eq_true, decide_eq_true_eq, not_or] at hc
  obtain ⟨hsp, (⟨⟨⟨⟨hpipe, hamp⟩, hgt⟩, hlt⟩, hsemi⟩)⟩ := hc
  have hplain : m.next c = m.nextPlain c := by cases m <;> first | rfl | cases hm
  rw [hplain, nextPlain, if_neg hsp, if_neg hpipe, if_neg hamp, if_neg hsemi, if_neg hlt, if_neg hgt]

/-- Everything a character outside a quotation can do: end the pending token,
    add an operator, or go on with a word. -/
theorem nextPlain_cases {m : Mode} {c : UInt8} {r : Mode × List Token} (hr : m.nextPlain c = r) :
    (∃ os : List Op, os.length ≤ 1 ∧ r = (between false, m.flush ++ os.map .op)) ∨
      (m = between true ∧ r = (between false, [.op .gtgt])) ∨ r = (between true, m.flush) ∨
      ∃ m', r = (m', m.held) ∧ (m' = afterBackslash m.word ∨ m' = inDouble m.word ∨
        m' = inSingle m.word ∨ m' = inWord (m.word ++ [c])) := by
  rw [nextPlain] at hr
  by_cases hsp : isSpace c
  · rw [if_pos hsp] at hr
    exact .inl ⟨[], by decide, by simp [← hr]⟩
  rw [if_neg hsp] at hr
  by_cases hpipe : c = byte '|'
  · rw [if_pos hpipe] at hr
    exact .inl ⟨[.pipe], by decide, hr.symm⟩
  rw [if_neg hpipe] at hr
  by_cases hamp : c = byte '&'
  · rw [if_pos hamp] at hr
    exact .inl ⟨[.amp], by decide, hr.symm⟩
  rw [if_neg hamp] at hr
  by_cases hsemi : c = byte ';'
  · rw [if_pos hsemi] at hr
    exact .inl ⟨[.semi], by decide, hr.symm⟩
  rw [if_neg hsemi] at hr
  by_cases hlt : c = byte '<'
  · rw [if_pos hlt] at hr
    exact .inl ⟨[.lt], by decide, hr.symm⟩
  rw [if_neg hlt] at hr
  by_cases hgt : c = byte '>'
  · rw [if_pos hgt] at hr
    by_cases hm : m = between true
    · rw [if_pos hm] at hr
      exact .inr (.inl ⟨hm, hr.symm⟩)
    · rw [if_neg hm] at hr
      exact .inr (.inr (.inl hr.symm))
  rw [if_neg hgt] at hr
  refine .inr (.inr (.inr ?_))
  by_cases hb : c = backslash
  · rw [if_pos hb] at hr
    exact ⟨_, hr.symm, .inl rfl⟩
  rw [if_neg hb] at hr
  by_cases hd : c = doubleQuoteMark
  · rw [if_pos hd] at hr
    exact ⟨_, hr.symm, .inr (.inl rfl)⟩
  rw [if_neg hd] at hr
  by_cases hq : c = singleQuoteMark
  · rw [if_pos hq] at hr
    exact ⟨_, hr.symm, .inr (.inr (.inl rfl))⟩
  · rw [if_neg hq] at hr
    exact ⟨_, hr.symm, .inr (.inr (.inr rfl))⟩

/-- A word ends at a blank or an operator. -/
theorem next_inWord_of_stop {w : Str} {c : UInt8} (hc : isSpace c || isSpecial c) :
    (inWord w).next c = (((between false).next c).1, [.word w] ++ ((between false).next c).2) := by
  simp only [isSpecial, Bool.or_eq_true, decide_eq_true_eq] at hc
  rcases hc with hsp | (((rfl | rfl) | rfl) | rfl) | rfl
  · rw [next, next, nextPlain, nextPlain, if_pos hsp, if_pos hsp]; rfl
  all_goals rfl

/-- A `>` is an operator of its own unless another one follows. -/
theorem next_held {c : UInt8} (hgt : c ≠ byte '>') :
    (between true).next c = (((between false).next c).1, [.op .gt] ++ ((between false).next c).2) := by
  by_cases hc : isSpace c || isSpecial c
  · simp only [isSpecial, Bool.or_eq_true, decide_eq_true_eq] at hc
    rcases hc with hsp | (((rfl | rfl) | rfl) | rfl) | rfl
    · rw [next, next, nextPlain, nextPlain, if_pos hsp, if_pos hsp]; rfl
    · rfl
    · rfl
    · exact absurd rfl hgt
    · rfl
    · rfl
  · rw [next_of_not_stop rfl hc, next_of_not_stop rfl hc]
    split
    · rfl
    split
    · rfl
    split <;> rfl

/-- The word read so far is completed by the next character or kept. -/
theorem next_word (m : Mode) (c : UInt8) :
    Token.word m.word ∈ (m.next c).2 ∨ m.word.length ≤ (m.next c).1.word.length := by
  cases m with
  | between gt => exact Or.inr (Nat.zero_le _)
  | inWord w =>
    by_cases hc : isSpace c || isSpecial c
    · rw [next_inWord_of_stop hc]; exact Or.inl (List.mem_append_left _ (List.mem_singleton_self _))
    · rw [next_of_not_stop rfl hc]
      right
      split
      · exact Nat.le_refl _
      split
      · exact Nat.le_refl _
      split
      · exact Nat.le_refl _
      · simp [word]
  | afterBackslash w => simp [next, word]
  | inSingle w => simp only [next]; split_ifs <;> simp [word]
  | inDouble w => simp only [next]; split_ifs <;> simp [word]
  | afterBackslashInDouble w => simp only [next]; split_ifs <;> simp [word]

end Mode

/-- While the words of the output fit, so does the word being read. -/
theorem Fits.word_lt : ∀ {s : Str} {m : Mode}, Fits (scan m s) → m.word.length < wordSize
  | [], m, h => h.2
  | c :: cs, m, h => by
    rcases m.next_word c with hw | hw
    · exact h.1 _ (List.mem_append_left _ hw)
    · exact Nat.lt_of_le_of_lt hw (Fits.word_lt (Fits.of_emit h))

/-! ## How many tokens, and how long -/

namespace Mode

/-- The tokens that are begun and not complete. -/
def begun : Mode → ℕ
  | between false => 0
  | _ => 1

/-- The bytes of the word that is being read. -/
def size (m : Mode) : ℕ :=
  match m with
  | afterBackslashInDouble w => w.length + 1
  | m => m.word.length

@[simp] theorem size_between (gt : Bool) : (between gt).size = 0 := rfl

@[simp] theorem size_inWord (w : Str) : (inWord w).size = w.length := rfl

@[simp] theorem size_afterBackslash (w : Str) : (afterBackslash w).size = w.length := rfl

@[simp] theorem size_inSingle (w : Str) : (inSingle w).size = w.length := rfl

@[simp] theorem size_inDouble (w : Str) : (inDouble w).size = w.length := rfl

@[simp] theorem size_afterBackslashInDouble (w : Str) :
    (afterBackslashInDouble w).size = w.length + 1 := rfl

theorem length_flush (m : Mode) : m.flush.length ≤ m.begun ∧ m.held.length ≤ m.begun := by
  match m with
  | between false | between true => decide
  | inWord w => exact ⟨Nat.le_refl _, Nat.zero_le _⟩
  | afterBackslash w | inSingle w | inDouble w | afterBackslashInDouble w =>
    exact ⟨Nat.zero_le _, Nat.zero_le _⟩

/-- A character begins at most one token. -/
theorem length_next (m : Mode) (c : UInt8) :
    (m.next c).2.length + (m.next c).1.begun ≤ m.begun + 1 := by
  have hplain (m : Mode) : (m.nextPlain c).2.length + (m.nextPlain c).1.begun ≤ m.begun + 1 := by
    obtain ⟨hflush, hheld⟩ := m.length_flush
    rcases nextPlain_cases (m := m) (c := c) rfl with
      ⟨os, hos, h⟩ | ⟨rfl, h⟩ | h | ⟨m', h, hm'⟩ <;> rw [h]
    · show (m.flush ++ os.map Token.op).length + 0 ≤ m.begun + 1
      rw [List.length_append, List.length_map]
      omega
    · decide
    · exact Nat.succ_le_succ hflush
    · have hbegun : m'.begun = 1 := by
        rcases hm' with rfl | rfl | rfl | rfl <;> rfl
      rw [hbegun]
      exact Nat.succ_le_succ hheld
  cases m with
  | between gt => exact hplain _
  | inWord w => exact hplain _
  | afterBackslash w => exact Nat.le_succ 1
  | inSingle w =>
    rw [next]
    split_ifs <;> exact Nat.le_succ 1
  | inDouble w =>
    rw [next]
    split_ifs <;> exact Nat.le_succ 1
  | afterBackslashInDouble w =>
    rw [next]
    split_ifs <;> exact Nat.le_succ 1

theorem mem_flush {m : Mode} {t : Token} (h : t ∈ m.flush ∨ t ∈ m.held) :
    t.value.length ≤ max m.size 2 := by
  match m, h with
  | between true, .inl h | between true, .inr h =>
    obtain rfl := List.mem_singleton.1 h
    decide
  | inWord w, .inl h =>
    obtain rfl := List.mem_singleton.1 h
    exact Nat.le_max_left _ _

theorem size_next (m : Mode) (c : UInt8) :
    (m.next c).1.size ≤ m.size + 1 ∧ ∀ t ∈ (m.next c).2, t.value.length ≤ max m.size 2 := by
  have hplain (m : Mode) (hm : m.size = m.word.length) :
      (m.nextPlain c).1.size ≤ m.size + 1 ∧
        ∀ t ∈ (m.nextPlain c).2, t.value.length ≤ max m.size 2 := by
    have hop (o : Op) : (Token.op o).value.length ≤ max m.size 2 :=
      Nat.le_trans (by cases o <;> decide) (Nat.le_max_right _ 2)
    have hflush : ∀ t ∈ m.flush, t.value.length ≤ max m.size 2 := fun t ht => mem_flush (.inl ht)
    have hheld : ∀ t ∈ m.held, t.value.length ≤ max m.size 2 := fun t ht => mem_flush (.inr ht)
    rcases nextPlain_cases (m := m) (c := c) rfl with
      ⟨os, -, h⟩ | ⟨-, h⟩ | h | ⟨m', h, hm'⟩ <;> rw [h]
    · refine ⟨Nat.zero_le _, List.forall_mem_append.2 ⟨hflush, ?_⟩⟩
      exact List.forall_mem_map.2 fun o _ => hop o
    · exact ⟨Nat.zero_le _, List.forall_mem_singleton.2 (hop _)⟩
    · exact ⟨Nat.zero_le _, hflush⟩
    · refine ⟨?_, hheld⟩
      rcases hm' with rfl | rfl | rfl | rfl <;> simp [hm]
  cases m with
  | between gt => exact hplain _ rfl
  | inWord w => exact hplain _ rfl
  | afterBackslash w => exact ⟨by simp [next], by simp [next]⟩
  | inSingle w =>
    rw [next]
    split_ifs <;> exact ⟨by simp, by simp⟩
  | inDouble w =>
    rw [next]
    split_ifs <;> exact ⟨by simp, by simp⟩
  | afterBackslashInDouble w =>
    rw [next]
    split_ifs <;> exact ⟨by simp, by simp⟩

end Mode

theorem length_scan (m : Mode) (s : Str) : (scan m s).2.length ≤ m.begun + s.length := by
  induction s generalizing m with
  | nil => exact m.length_flush.1
  | cons c cs ih =>
    have hnext := m.length_next c
    have hrest := ih (m.next c).1
    simp only [scan, emit, List.length_append, List.length_cons]
    omega

/-- A line shorter than the buffer of the lexer fits it. -/
theorem fits_scan {m : Mode} {s : Str} (h : m.size + s.length < wordSize) : Fits (scan m s) := by
  have htwo : 2 < wordSize := by decide
  induction s generalizing m with
  | nil =>
    refine ⟨fun t ht => ?_, ?_⟩
    · have := Mode.mem_flush (.inl ht)
      omega
    · have : m.word.length ≤ m.size := by cases m <;> simp [Mode.word]
      exact Nat.lt_of_le_of_lt this (by omega)
  | cons c cs ih =>
    obtain ⟨hsize, hemit⟩ := m.size_next c
    rw [List.length_cons] at h
    have hrest := ih (m := (m.next c).1) (by omega)
    refine ⟨List.forall_mem_append.2 ⟨fun t ht => ?_, hrest.1⟩, hrest.2⟩
    have := hemit t ht
    omega

/-! ## The quoting functions -/

/-- A quoting function or the word loop, called where the automaton is in
    state `m` before the rest `rest` of the line, gives up only if the line
    ends in an open quotation, and otherwise stops further on (at the rest
    `rest'`) where the automaton is in the word it returns. -/
def Follows (line : Str) (m : Mode) (rest : Str) (P : Str → Prop) :
    Except Fault (Option (ℕ × Str)) → Prop
  | .error _ => False
  | .ok none => (scan m rest).1.isOpen
  | .ok (some (pos, w)) => ∃ pre rest', line = pre ++ rest' ∧ pos = pre.length ∧
      scan m rest = scan (.inWord w) rest' ∧ rest'.length ≤ rest.length ∧ P rest'

theorem Follows.of_scan {line : Str} {m m' : Mode} {rest rest' : Str} {P : Str → Prop}
    {r : Except Fault (Option (ℕ × Str))} (he : scan m rest = scan m' rest')
    (hl : rest'.length ≤ rest.length) (h : Follows line m' rest' P r) : Follows line m rest P r := by
  match r, h with
  | .ok none, h => rw [Follows, he]; exact h
  | .ok (some (pos, w)), ⟨pre, rest'', h1, h2, h3, h4, h5⟩ =>
    exact ⟨pre, rest'', h1, h2, he.trans h3, Nat.le_trans h4 hl, h5⟩

/-- A character that completes no token. -/
theorem scan_cons {m m' : Mode} {c : UInt8} (h : m.next c = (m', [])) (cs : Str) :
    scan m (c :: cs) = scan m' cs := by rw [scan, h, emit_nil]

theorem push_of_fits {m : Mode} {w v s : Str} {c : UInt8} (hw : m.word = w ++ c :: v)
    (h : Fits (scan m s)) : push wordSize w c = .ok (w ++ [c]) := by
  refine push_of_lt c ?_
  have := h.word_lt
  rw [hw, List.length_append] at this
  exact Nat.lt_of_le_of_lt (Nat.le_add_right _ _) this

/-- At a character `c` of the line: it is read, is no NUL, and may be passed. -/
theorem read_cons {line pre cs : Str} {c : UInt8} (hl : line = pre ++ c :: cs) (h0 : 0 ∉ c :: cs) :
    readAt line pre.length = .ok c ∧ c ≠ 0 ∧ line = (pre ++ [c]) ++ cs ∧ 0 ∉ cs := by
  simp only [List.mem_cons, not_or] at h0
  exact ⟨by rw [hl, readAt_length, List.headD_cons], Ne.symm h0.1, by simp [hl], h0.2⟩

theorem singleQuoteLoop_follows {line : Str} : ∀ (n : ℕ) (rest pre w : Str),
    line = pre ++ rest → 0 ∉ rest → rest.length < n → Fits (scan (.inSingle w) rest) →
      Follows line (.inSingle w) rest (fun _ => True) (singleQuoteLoop line n pre.length w)
  | n + 1, [], pre, w, hl, _, _, _ => by
    rw [singleQuoteLoop, hl, readAt_length]
    rfl
  | n + 1, c :: cs, pre, w, hl, h0, hn, hf => by
    obtain ⟨hr, hc, hl', h0'⟩ := read_cons hl h0
    rw [singleQuoteLoop, hr, ok_bind, if_neg hc]
    by_cases hq : c = singleQuoteMark
    · rw [if_pos hq]
      exact ⟨pre ++ [c], cs, hl', by simp, scan_cons (by exact if_pos hq) cs, by simp, trivial⟩
    · have hs : scan (.inSingle w) (c :: cs) = scan (.inSingle (w ++ [c])) cs :=
        scan_cons (by exact if_neg hq) cs
      rw [hs] at hf
      have ih := singleQuoteLoop_follows n cs (pre ++ [c]) (w ++ [c]) hl' h0' (by simpa using hn) hf
      rw [List.length_append] at ih
      rw [if_neg hq, push_of_fits rfl hf, ok_bind]
      exact Follows.of_scan hs (by simp) ih

theorem doubleQuoteLoop_follows {line : Str} : ∀ (n : ℕ) (rest pre w : Str),
    line = pre ++ rest → 0 ∉ rest → rest.length < n → Fits (scan (.inDouble w) rest) →
      Follows line (.inDouble w) rest (fun _ => True) (doubleQuoteLoop line n pre.length w)
  | n + 1, [], pre, w, hl, _, _, _ => by
    rw [doubleQuoteLoop, hl, readAt_length]
    rfl
  | n + 1, c :: cs, pre, w, hl, h0, hn, hf => by
    obtain ⟨hr, hc, hl', h0'⟩ := read_cons hl h0
    rw [doubleQuoteLoop, hr, ok_bind, if_neg hc]
    by_cases hq : c = doubleQuoteMark
    · rw [if_pos hq]
      exact ⟨pre ++ [c], cs, hl', by simp, scan_cons (by exact if_pos hq) cs, by simp, trivial⟩
    rw [if_neg hq]
    by_cases hb : c = backslash
    · subst hb
      have hs : scan (.inDouble w) (backslash :: cs) = scan (.afterBackslashInDouble w) cs :=
        scan_cons (by rw [Mode.next, if_neg hq, if_pos rfl]) cs
      rw [if_pos rfl, hl, readAt_length_succ, ok_bind, ← hl]
      -- the character after the backslash is read ahead; the automaton has a state for it
      cases cs with
      | nil => rw [List.headD_nil, if_pos rfl]; exact congrArg (·.1.isOpen) hs
      | cons d ds =>
        obtain ⟨-, hd, hl'', h0''⟩ := read_cons hl' h0'
        have ih := @doubleQuoteLoop_follows line n ds (pre ++ [backslash] ++ [d])
        simp only [List.length_append, List.length_cons, List.length_nil] at ih hn
        rw [List.headD_cons, if_neg hd]
        by_cases hesc : d = doubleQuoteMark ∨ d = backslash
        · have hs' : scan (.afterBackslashInDouble w) (d :: ds) = scan (.inDouble (w ++ [d])) ds :=
            scan_cons (by exact if_pos hesc) ds
          rw [hs, hs'] at hf
          have ih := ih (w ++ [d]) hl'' h0'' (by omega) hf
          refine Follows.of_scan (hs.trans hs') (by simp only [List.length_cons]; omega) ?_
          rcases hesc with rfl | rfl
          · rw [if_pos rfl, push_of_fits rfl hf, ok_bind]; exact ih
          · rw [if_neg (by decide), if_pos rfl, push_of_fits rfl hf, ok_bind]; exact ih
        · have hs' : scan (.afterBackslashInDouble w) (d :: ds) =
              scan (.inDouble (w ++ [backslash, d])) ds := scan_cons (by exact if_neg hesc) ds
          rw [hs, hs'] at hf
          have ih := ih (w ++ [backslash, d]) hl'' h0'' (by omega) hf
          refine Follows.of_scan (hs.trans hs') (by simp only [List.length_cons]; omega) ?_
          have hw : w ++ [backslash, d] = w ++ [backslash] ++ [d] := by simp
          rw [not_or] at hesc
          rw [if_neg hesc.1, if_neg hesc.2, push_of_fits rfl hf, ok_bind,
            push_of_fits (m := .inDouble (w ++ [backslash, d])) hw hf, ok_bind, ← hw]
          exact ih
    · have hs : scan (.inDouble w) (c :: cs) = scan (.inDouble (w ++ [c])) cs :=
        scan_cons (by exact (if_neg hq).trans (if_neg hb)) cs
      rw [hs] at hf
      have ih := doubleQuoteLoop_follows n cs (pre ++ [c]) (w ++ [c]) hl' h0' (by simpa using hn) hf
      rw [List.length_append] at ih
      rw [if_neg hb, push_of_fits rfl hf, ok_bind]
      exact Follows.of_scan hs (by simp) ih

theorem backslashQuote_follows {line pre cs w : Str} {c : UInt8} (hl : line = pre ++ c :: cs)
    (h0 : 0 ∉ cs) (hf : Fits (scan (.afterBackslash w) cs)) :
    Follows line (.afterBackslash w) cs (fun _ => True) (backslashQuote line pre.length w) := by
  rw [backslashQuote, hl, readAt_length_succ, ok_bind, ← hl]
  cases cs with
  | nil => rfl
  | cons d ds =>
    have hs : scan (.afterBackslash w) (d :: ds) = scan (.inWord (w ++ [d])) ds := scan_cons rfl ds
    obtain ⟨-, hd, hl', -⟩ := read_cons (hl.trans (by simp) : line = (pre ++ [c]) ++ d :: ds) h0
    rw [hs] at hf
    rw [List.headD_cons, if_neg hd, push_of_fits rfl hf, ok_bind]
    exact ⟨_, ds, hl', by simp, hs, by simp, trivial⟩

theorem Follows.bind {line rest : Str} {m : Mode} {P : Str → Prop}
    {r : Except Fault (Option (ℕ × Str))} {k : ℕ → Str → Except Fault (Option (ℕ × Str))}
    (h : Follows line m rest (fun _ => True) r)
    (hk : ∀ pre rest' w, line = pre ++ rest' → scan m rest = scan (.inWord w) rest' →
      rest'.length ≤ rest.length → Follows line (.inWord w) rest' P (k pre.length w)) :
    Follows line m rest P (r >>= fun x => match x with
      | none => pure none
      | some (pos, w) => k pos w) := by
  match r, h with
  | .ok none, h => exact h
  | .ok (some (pos, w)), ⟨pre, rest', h1, h2, h3, h4, _⟩ =>
    subst h2
    exact Follows.of_scan h3 h4 (hk pre rest' w h1 h3 h4)

/-! ## Words -/

/-- The rest of the line is empty or begins with a character that ends a word. -/
def AtStop (rest : Str) : Prop := ∀ c ∈ rest.head?, isSpace c || isSpecial c

theorem wordLoop_follows {line : Str} (h0 : 0 ∉ line) : ∀ (n : ℕ) (rest pre w : Str),
    line = pre ++ rest → rest.length < n → Fits (scan (.inWord w) rest) →
      Follows line (.inWord w) rest AtStop (wordLoop line n pre.length w)
  | n + 1, [], pre, w, hl, _, _ => by
    rw [wordLoop, hl, readAt_length]
    exact ⟨pre, [], rfl, rfl, rfl, Nat.le_refl _, by simp [AtStop]⟩
  | n + 1, c :: cs, pre, w, hl, hn, hf => by
    obtain ⟨hr, hc, hl', h0'⟩ := read_cons hl (fun h => h0 (hl ▸ List.mem_append_right _ h))
    have hlen : cs.length < line.length + 1 := by simp only [hl, List.length_append, List.length_cons]; omega
    have hn' : cs.length < n := by simpa using hn
    have ih := wordLoop_follows h0 n
    rw [wordLoop, hr, ok_bind]
    by_cases hstop : isSpace c || isSpecial c
    · rw [if_pos (by simpa [hc] using hstop)]
      exact ⟨pre, c :: cs, hl, rfl, rfl, Nat.le_refl _, by simpa [AtStop] using hstop⟩
    rw [if_neg (by simpa [hc] using hstop)]
    have hnext := Mode.next_of_not_stop (m := .inWord w) rfl hstop
    -- a quoting function is called and the loop goes on where it stops
    have resume : ∀ {m : Mode} {r}, (Mode.inWord w).next c = (m, []) →
        (Fits (scan m cs) → Follows line m cs (fun _ => True) r) →
        Follows line (.inWord w) (c :: cs) AtStop (r >>= fun x => match x with
          | none => pure none
          | some (pos, w) => wordLoop line n pos w) := by
      intro m r hnext hr
      have hs : scan (.inWord w) (c :: cs) = scan m cs := scan_cons hnext cs
      rw [hs] at hf
      refine Follows.of_scan hs (by simp) (Follows.bind (hr hf) ?_)
      intro pre' rest' w' h1 h2 h3
      exact ih rest' pre' w' h1 (Nat.lt_of_le_of_lt h3 hn') (h2 ▸ hf)
    by_cases hb : c = backslash
    · rw [if_pos hb] at hnext ⊢
      exact resume hnext (backslashQuote_follows hl h0')
    rw [if_neg hb] at hnext ⊢
    by_cases hd : c = doubleQuoteMark
    · rw [if_pos hd] at hnext ⊢
      refine resume hnext fun hf => ?_
      have := doubleQuoteLoop_follows _ cs _ w hl' h0' hlen hf
      rwa [List.length_append] at this
    rw [if_neg hd] at hnext ⊢
    by_cases hq : c = singleQuoteMark
    · rw [if_pos hq] at hnext ⊢
      refine resume hnext fun hf => ?_
      have := singleQuoteLoop_follows _ cs _ w hl' h0' hlen hf
      rwa [List.length_append] at this
    · rw [if_neg hq] at hnext ⊢
      have hs : scan (.inWord w) (c :: cs) = scan (.inWord (w ++ [c])) cs := scan_cons hnext cs
      rw [hs] at hf
      have := ih cs (pre ++ [c]) (w ++ [c]) hl' hn' hf
      rw [List.length_append] at this
      rw [push_of_fits rfl hf, ok_bind]
      exact Follows.of_scan hs (by simp) this

/-! ## The tokens of a line -/

/-- `lexing`, started with the list `tokens` where the automaton goes on to
    the outcome `r`: it fails iff a quotation is left open, and otherwise
    appends the automaton's tokens. -/
def Lexes (r : Mode × List Token) (tokens : List Token) (res : Except Fault (Bool × List Token)) : Prop :=
  ∃ b ts, res = .ok (b, ts) ∧ (b = false ↔ r.1.isOpen) ∧ (b = true → ts = tokens ++ r.2)

theorem Lexes.of_emit {us tokens : List Token} {r : Mode × List Token}
    {res : Except Fault (Bool × List Token)} (h : Lexes r (tokens ++ us) res) :
    Lexes (emit us r) tokens res := by
  obtain ⟨b, ts, h1, h2, h3⟩ := h
  exact ⟨b, ts, h1, h2, fun hb => by rw [h3 hb, emit, List.append_assoc]⟩

/-- Where the pending token ends, the automaton goes on as between words. -/
theorem scan_flush {m : Mode} {rest : Str} (hm : m.isOpen = false)
    (h : ∀ c ∈ rest.head?, m.next c =
      (((Mode.between false).next c).1, m.flush ++ ((Mode.between false).next c).2)) :
    (scan m rest).1.isOpen = (scan (.between false) rest).1.isOpen ∧
      (scan m rest).2 = m.flush ++ (scan (.between false) rest).2 ∧
      (Fits (scan m rest) → Fits (scan (.between false) rest)) := by
  cases rest with
  | nil =>
    refine ⟨hm, by simp [scan, Mode.flush, Mode.held], fun _ => ⟨?_, by decide⟩⟩
    simp [scan, Mode.flush, Mode.held]
  | cons c cs =>
    have hs : scan m (c :: cs) = emit m.flush (scan (.between false) (c :: cs)) := by
      rw [scan, scan, h c rfl, emit_emit]
    rw [hs]
    exact ⟨rfl, rfl, Fits.of_emit⟩

theorem Lexes.of_flush {m : Mode} {rest : Str} {tokens : List Token}
    {res : Except Fault (Bool × List Token)} (hm : m.isOpen = false)
    (hnext : ∀ c ∈ rest.head?, m.next c =
      (((Mode.between false).next c).1, m.flush ++ ((Mode.between false).next c).2))
    (h : Lexes (scan (.between false) rest) (tokens ++ m.flush) res) :
    Lexes (scan m rest) tokens res := by
  obtain ⟨h1, h2, -⟩ := scan_flush hm hnext
  obtain ⟨b, ts, h3, h4, h5⟩ := h
  exact ⟨b, ts, h3, by rw [h1]; exact h4, fun hb => by rw [h5 hb, h2, List.append_assoc]⟩

/-- A character that belongs to a word is read alike between words and at the
    begin of a word. -/
theorem scan_between_of_not_stop {c : UInt8} (hc : ¬(isSpace c || isSpecial c)) (cs : Str) :
    scan (.between false) (c :: cs) = scan (.inWord []) (c :: cs) := by
  have h : (Mode.between false).next c = (Mode.inWord []).next c := by
    rw [Mode.next_of_not_stop rfl hc, Mode.next_of_not_stop rfl hc]
    rfl
  rw [scan, scan, h]

/-- The word loop, called at a character of a word, takes at least that one. -/
theorem wordLoop_advances {line pre rest pre' rest' : Str} (hl : line = pre ++ rest)
    (hl' : line = pre' ++ rest') (hrest : ¬AtStop rest) (hrest' : AtStop rest')
    (hlen : rest'.length ≤ rest.length) : rest'.length < rest.length := by
  refine Nat.lt_of_le_of_ne hlen fun heq => hrest ?_
  have : rest = rest' := (List.append_inj_right' (hl.symm.trans hl') heq.symm)
  rwa [this]

/-- The loop with fuel `n` lexes every rest of the line that is shorter. -/
def LoopLexes (line : Str) (n : ℕ) : Prop :=
  ∀ (rest pre : Str) (tokens : List Token), line = pre ++ rest → rest.length < n →
    Fits (scan (.between false) rest) →
      Lexes (scan (.between false) rest) tokens (lexingLoop line n pre.length tokens)

section
variable {line pre cs : Str} {c : UInt8} {n : ℕ} {tokens : List Token} (ih : LoopLexes line n)
  (hl : line = pre ++ c :: cs) (hn : cs.length < n)
include ih hl hn

/-- A character that leaves the automaton between words. -/
theorem LoopLexes.next {ts : List Token} (hnext : (Mode.between false).next c = (.between false, ts))
    (hf : Fits (scan (.between false) (c :: cs))) :
    Lexes (scan (.between false) (c :: cs)) tokens
      (lexingLoop line n (pre.length + 1) (tokens ++ ts)) := by
  rw [scan, hnext] at hf ⊢
  have hrest := ih cs (pre ++ [c]) (tokens ++ ts) (hl.trans (by simp)) hn hf.of_emit
  rw [List.length_append] at hrest
  exact hrest.of_emit

/-- After `>` the lexer looks at the next character, and the automaton goes to a
    state of its own. -/
theorem LoopLexes.gt (hgt : c = byte '>') (hf : Fits (scan (.between false) (c :: cs))) :
    Lexes (scan (.between false) (c :: cs)) tokens (do
      let d ← readAt line (pre.length + 1)
      if d = byte '>' then
        lexingLoop line n (pre.length + 2) (addToken tokens (.op .gtgt))
      else
        lexingLoop line n (pre.length + 1) (addToken tokens (.op .gt))) := by
  have hs : scan (.between false) (c :: cs) = scan (.between true) cs :=
    scan_cons (by rw [hgt]; decide) cs
  have hl' : line = pre ++ [c] ++ cs := hl.trans (by simp)
  rw [hl, readAt_length_succ, ok_bind, ← hl]
  rw [hs] at hf ⊢
  by_cases hgtgt : cs.headD 0 = byte '>'
  · rw [if_pos hgtgt]
    obtain _ | ⟨d, ds⟩ := cs
    · exact absurd hgtgt (by decide)
    have hs' : (Mode.between true).next d = (.between false, [.op .gtgt]) := by
      rw [show d = byte '>' from hgtgt]
      decide
    rw [scan, hs'] at hf ⊢
    rw [List.length_cons] at hn
    have hrest := ih ds (pre ++ [c] ++ [d]) (tokens ++ [.op .gtgt]) (hl'.trans (by simp)) (by omega)
      hf.of_emit
    rw [List.length_append, List.length_append] at hrest
    exact hrest.of_emit
  · have hnext : ∀ d ∈ cs.head?, (Mode.between true).next d = _ := fun d hd =>
      Mode.next_held fun h => hgtgt (by rw [List.headD_eq_head?_getD, hd]; exact h)
    rw [if_neg hgtgt]
    have hrest := ih cs (pre ++ [c]) (tokens ++ [.op .gt]) hl' hn ((scan_flush rfl hnext).2.2 hf)
    rw [List.length_append] at hrest
    exact Lexes.of_flush rfl hnext hrest

/-- The word that begins here is added, and the loop goes on behind it. -/
theorem LoopLexes.word (h0 : 0 ∉ line) (hstop : ¬(isSpace c || isSpecial c))
    (hf : Fits (scan (.between false) (c :: cs))) :
    Lexes (scan (.between false) (c :: cs)) tokens (do
      match ← wordLoop line (line.length + 1) pre.length [] with
      | none => return (false, tokens)
      | some (pos, word) =>
        let word ← terminate wordSize word
        lexingLoop line n pos (addToken tokens (.word word))) := by
  rw [scan_between_of_not_stop hstop] at hf ⊢
  have hlen : (c :: cs).length < line.length + 1 := by
    rw [hl, List.length_append]
    omega
  have hword := wordLoop_follows h0 (line.length + 1) (c :: cs) pre [] hl hlen hf
  match hw : wordLoop line (line.length + 1) pre.length [], hword with
  | .ok none, hopen =>
    exact ⟨false, tokens, rfl, iff_of_true rfl hopen, by simp⟩
  | .ok (some (pos, w)), ⟨pre', rest', hl', hpos, hscan, hle, hat⟩ =>
    have hadv := wordLoop_advances hl hl' (by simpa [AtStop] using hstop) hat hle
    rw [List.length_cons] at hadv
    rw [hscan] at hf ⊢
    have hnext : ∀ d ∈ rest'.head?, (Mode.inWord w).next d = _ := fun d hd =>
      Mode.next_inWord_of_stop (hat d hd)
    have hrest := ih rest' pre' (tokens ++ [.word w]) hl' (by omega) ((scan_flush rfl hnext).2.2 hf)
    have hterm : terminate wordSize w = .ok w := terminate_of_lt hf.word_lt
    simp only [ok_bind, hterm, hpos]
    exact Lexes.of_flush rfl hnext hrest

end

theorem lexingLoop_scan {line : Str} (h0 : 0 ∉ line) : ∀ (n : ℕ) (rest pre : Str) (tokens : List Token),
    line = pre ++ rest → rest.length < n → Fits (scan (.between false) rest) →
      Lexes (scan (.between false) rest) tokens (lexingLoop line n pre.length tokens)
  | n + 1, [], pre, tokens, hl, _, _ => by
    rw [lexingLoop, hl, readAt_length]
    exact ⟨true, tokens, rfl, by simp [scan, Mode.isOpen], by simp [scan, Mode.flush, Mode.held]⟩
  | n + 1, c :: cs, pre, tokens, hl, hn, hf => by
    obtain ⟨hr, hc, -, -⟩ := read_cons hl (fun h => h0 (hl ▸ List.mem_append_right _ h))
    have hn' : cs.length < n := by simpa using hn
    have ih : LoopLexes line n := lexingLoop_scan h0 n
    rw [lexingLoop, hr, ok_bind, if_neg hc]
    by_cases hsp : isSpace c
    · rw [if_pos hsp]
      have hrest : Lexes _ tokens (lexingLoop line n (pre.length + 1) (tokens ++ [])) :=
        ih.next hl hn' (if_pos hsp) hf
      rwa [List.append_nil] at hrest
    rw [if_neg hsp]
    by_cases hpipe : c = byte '|'
    · rw [if_pos hpipe]
      exact ih.next hl hn' (by rw [hpipe]; decide) hf
    rw [if_neg hpipe]
    by_cases hamp : c = byte '&'
    · rw [if_pos hamp]
      exact ih.next hl hn' (by rw [hamp]; decide) hf
    rw [if_neg hamp]
    by_cases hsemi : c = byte ';'
    · rw [if_pos hsemi]
      exact ih.next hl hn' (by rw [hsemi]; decide) hf
    rw [if_neg hsemi]
    by_cases hlt : c = byte '<'
    · rw [if_pos hlt]
      exact ih.next hl hn' (by rw [hlt]; decide) hf
    rw [if_neg hlt]
    by_cases hgt : c = byte '>'
    · rw [if_pos hgt]
      exact ih.gt hl hn' hgt hf
    rw [if_neg hgt]
    have hstop : ¬(isSpace c || isSpecial c) := by
      simp [isSpecial, hsp, hpipe, hamp, hsemi, hlt, hgt]
    exact ih.word hl hn' h0 hstop hf

/-- **The lexer is the automaton**, on every line without a NUL whose words
    fit its buffer. -/
theorem lexing_scan {line : Str} (h0 : 0 ∉ line) (hf : WordsFit line) :
    Lexes (scan (.between false) line) [] (lexing [] line) :=
  lexingLoop_scan h0 _ line [] [] rfl (Nat.lt_succ_self _) hf

/-- Nothing in the lexer depends on more than the automaton: it returns `0`
    iff the line ends in a quotation or after a backslash, and otherwise `1`
    with exactly the automaton's tokens. -/
theorem lexing_eq_automaton (line : Str) (h0 : 0 ∉ line) (hfit : WordsFit line) :
    ∃ result tokens, lexing [] line = .ok (result, tokens) ∧
      (result = false ↔ (scan (.between false) line).1.isOpen) ∧
      (result = true → tokens = (scan (.between false) line).2) := by
  obtain ⟨b, ts, h1, h2, h3⟩ := lexing_scan h0 hfit
  exact ⟨b, ts, h1, h2, fun hb => by rw [h3 hb, List.nil_append]⟩

/-- The word `ab c"\d e` of four pieces, `>>`, an empty word, and `>`. -/
theorem lexing_eq_automaton_pieces :
    ∃ result tokens, lexing [] (str "a'b c'\"\\\"\\d\"\\ e>>''>") = .ok (result, tokens) ∧
      (result = false ↔ (scan (.between false) (str "a'b c'\"\\\"\\d\"\\ e>>''>")).1.isOpen) ∧
      (result = true → tokens = (scan (.between false) (str "a'b c'\"\\\"\\d\"\\ e>>''>")).2) :=
  lexing_eq_automaton _ (by decide) (by decide)

example : scan (.between false) (str "a'b c'\"\\\"\\d\"\\ e>>''>") =
    (.between true, [.word (str "ab c\"\\d e"), .op .gtgt, .word [], .op .gt]) := by decide

end CShell
