/-
  C-Shell formalization — lexing undoes quoting.

  A word can be written in many ways: as pieces of plain characters, characters
  after a backslash, and text in single or double quotes, mixed at will
  (`Piece`).  `Written` relates a list of tokens to every line that writes it,
  with one blank between two tokens.

  * `Piece.scan_text`: after a piece the automaton is in the word with what the
    piece stands for, whatever follows;
  * `lexing_written`: lexing any such line gives back the tokens.
-/
import CShell.Shell.Automaton

namespace CShell

open Lib

/-! ## Writing tokens -/

/-- A character that stands for itself in a word. -/
def IsPlain (c : UInt8) : Prop :=
  ¬(isSpace c || isSpecial c) ∧ c ≠ backslash ∧ c ≠ doubleQuoteMark ∧ c ≠ singleQuoteMark

instance (c : UInt8) : Decidable (IsPlain c) :=
  inferInstanceAs (Decidable (_ ∧ _ ∧ _ ∧ _))

/-- A character of a text in double quotes. -/
def escapeDouble (c : UInt8) : Str :=
  if c = doubleQuoteMark ∨ c = backslash then [backslash, c] else [c]

/-- A piece of a word. -/
inductive Piece where
  /-- plain characters, at least one -/
  | run (c : UInt8) (cs : Str) (plain : ∀ x ∈ c :: cs, IsPlain x)
  /-- `\c` -/
  | escaped (c : UInt8)
  /-- `'…'` -/
  | single (s : Str) (noMark : singleQuoteMark ∉ s)
  /-- `"…"` -/
  | double (s : Str)

namespace Piece

/-- How the piece is written. -/
def text : Piece → Str
  | run c cs _ => c :: cs
  | escaped c => [backslash, c]
  | single s _ => singleQuoteMark :: s ++ [singleQuoteMark]
  | double s => doubleQuoteMark :: s.flatMap escapeDouble ++ [doubleQuoteMark]

/-- What it stands for. -/
def denotes : Piece → Str
  | run c cs _ => c :: cs
  | escaped c => [c]
  | single s _ => s
  | double s => s

end Piece

/-- The ways to write a token. -/
inductive Writes : Token → Str → Prop where
  | op (o : Op) : Writes (.op o) o.text
  | word (p : Piece) (ps : List Piece) :
      Writes (.word ((p :: ps).flatMap Piece.denotes)) ((p :: ps).flatMap Piece.text)

/-- The ways to write tokens with one blank between two of them. -/
inductive Written : List Token → Str → Prop where
  | nil : Written [] []
  | last {t : Token} {s : Str} : Writes t s → Written [t] s
  | cons {t t' : Token} {ts : List Token} {s line : Str} {b : UInt8} :
      Writes t s → isSpace b → Written (t' :: ts) line →
        Written (t :: t' :: ts) (s ++ b :: line)

/-! ## Pieces -/

/-- A plain character is added to the word. -/
theorem IsPlain.next {m : Mode} {c : UInt8} (h : IsPlain c) (hm : m.isOpen = false)
    (hh : m.held = []) : m.next c = (.inWord (m.word ++ [c]), []) := by
  obtain ⟨hstop, hb, hd, hs⟩ := h
  rw [Mode.next_of_not_stop hm hstop, if_neg hb, if_neg hd, if_neg hs, hh]

theorem scan_run {cs : Str} (h : ∀ x ∈ cs, IsPlain x) (w rest : Str) :
    scan (.inWord w) (cs ++ rest) = scan (.inWord (w ++ cs)) rest := by
  induction cs generalizing w with
  | nil => simp
  | cons c cs ih =>
    rw [List.forall_mem_cons] at h
    rw [List.cons_append, scan_cons (h.1.next rfl rfl), ih h.2]
    simp [Mode.word]

/-- Text in single quotes, up to the closing mark. -/
theorem scan_single {s : Str} (h : singleQuoteMark ∉ s) (w rest : Str) :
    scan (.inSingle w) (s ++ singleQuoteMark :: rest) = scan (.inWord (w ++ s)) rest := by
  induction s generalizing w with
  | nil =>
    have hend : (Mode.inSingle w).next singleQuoteMark = (.inWord w, []) := rfl
    rw [List.nil_append, scan_cons hend, List.append_nil]
  | cons c s ih =>
    rw [List.mem_cons, not_or] at h
    have hc : (Mode.inSingle w).next c = (.inSingle (w ++ [c]), []) := if_neg (Ne.symm h.1)
    rw [List.cons_append, scan_cons hc, ih h.2]
    simp

/-- A character in double quotes, escaped where it has to be. -/
theorem scan_escapeDouble (c : UInt8) (w rest : Str) :
    scan (.inDouble w) (escapeDouble c ++ rest) = scan (.inDouble (w ++ [c])) rest := by
  unfold escapeDouble
  split
  · rename_i h
    have hb : (Mode.inDouble w).next backslash = (.afterBackslashInDouble w, []) := by
      rw [Mode.next, if_neg (by decide), if_pos rfl]
    have hc : (Mode.afterBackslashInDouble w).next c = (.inDouble (w ++ [c]), []) := if_pos h
    rw [List.cons_append, scan_cons hb, List.cons_append, scan_cons hc, List.nil_append]
  · rename_i h
    rw [not_or] at h
    have hc : (Mode.inDouble w).next c = (.inDouble (w ++ [c]), []) := by
      rw [Mode.next, if_neg h.1, if_neg h.2]
    rw [List.cons_append, scan_cons hc, List.nil_append]

/-- Text in double quotes, up to the closing mark. -/
theorem scan_double (s w rest : Str) :
    scan (.inDouble w) (s.flatMap escapeDouble ++ doubleQuoteMark :: rest) =
      scan (.inWord (w ++ s)) rest := by
  induction s generalizing w with
  | nil =>
    have hend : (Mode.inDouble w).next doubleQuoteMark = (.inWord w, []) := rfl
    rw [List.flatMap_nil, List.nil_append, scan_cons hend, List.append_nil]
  | cons c s ih =>
    rw [List.flatMap_cons, List.append_assoc, scan_escapeDouble, ih]
    simp

/-- The mark before a quotation. -/
theorem next_mark {m : Mode} (hm : m.isOpen = false) (hh : m.held = []) :
    m.next backslash = (.afterBackslash m.word, []) ∧
      m.next doubleQuoteMark = (.inDouble m.word, []) ∧
      m.next singleQuoteMark = (.inSingle m.word, []) := by
  refine ⟨?_, ?_, ?_⟩
  · rw [Mode.next_of_not_stop hm (by decide), if_pos rfl, hh]
  · rw [Mode.next_of_not_stop hm (by decide), if_neg (by decide), if_pos rfl, hh]
  · rw [Mode.next_of_not_stop hm (by decide), if_neg (by decide), if_neg (by decide), if_pos rfl, hh]

/-- **One piece**, in a word or before one. -/
theorem Piece.scan_text {m : Mode} (hm : m.isOpen = false) (hh : m.held = []) (p : Piece)
    (rest : Str) : scan m (p.text ++ rest) = scan (.inWord (m.word ++ p.denotes)) rest := by
  obtain ⟨hb, hd, hs⟩ := next_mark hm hh
  cases p with
  | run c cs h =>
    rw [List.forall_mem_cons] at h
    rw [text, denotes, List.cons_append, scan_cons (h.1.next hm hh), scan_run h.2]
    simp
  | escaped c =>
    rw [text, denotes, List.cons_append, scan_cons hb]
    exact scan_cons rfl rest
  | single s h =>
    rw [text, denotes, List.cons_append, List.cons_append, scan_cons hs, List.append_assoc]
    exact scan_single h m.word rest
  | double s =>
    rw [text, denotes, List.cons_append, List.cons_append, scan_cons hd, List.append_assoc]
    exact scan_double s m.word rest

theorem scan_pieces (ps : List Piece) (w rest : Str) :
    scan (.inWord w) (ps.flatMap Piece.text ++ rest) =
      scan (.inWord (w ++ ps.flatMap Piece.denotes)) rest := by
  induction ps generalizing w with
  | nil => simp
  | cons p ps ih =>
    rw [List.flatMap_cons, List.append_assoc, Piece.scan_text rfl rfl, ih]
    simp [Mode.word]

/-! ## Tokens -/

/-- A token as it is written: it is emitted, or pending where the text ends. -/
theorem Writes.scan {t : Token} {s : Str} (h : Writes t s) :
    ∃ m us, m.isOpen = false ∧ us ++ m.flush = [t] ∧ (m.word = [] ∨ t = .word m.word) ∧
      ∀ rest, scan (.between false) (s ++ rest) = emit us (scan m rest) := by
  cases h with
  | op o =>
    by_cases ho : o = .gt
    · subst ho
      refine ⟨.between true, [], rfl, rfl, .inl rfl, ?_⟩
      intro rest
      exact scan_cons rfl rest
    · refine ⟨.between false, [.op o], rfl, rfl, .inl rfl, ?_⟩
      intro rest
      cases o with
      | gt => exact absurd rfl ho
      | pipe | amp | semi | lt | gtgt => rfl
  | word p ps =>
    refine ⟨.inWord ((p :: ps).flatMap Piece.denotes), [], rfl, rfl, .inr rfl, ?_⟩
    intro rest
    rw [List.flatMap_cons, List.append_assoc, Piece.scan_text rfl rfl, scan_pieces,
      List.flatMap_cons]
    rfl

/-- A blank ends the pending token. -/
theorem scan_blank {m : Mode} {c : UInt8} (hm : m.isOpen = false) (hc : isSpace c) (rest : Str) :
    scan m (c :: rest) = emit m.flush (scan (.between false) rest) := by
  have hnext : m.next c = (.between false, m.flush) := by
    have hplain : m.next c = m.nextPlain c := by cases m <;> first | rfl | cases hm
    rw [hplain, Mode.nextPlain, if_pos hc]
  rw [scan, hnext]

/-- **The automaton reads the tokens back.** -/
theorem Written.scan {ts : List Token} {line : Str} (h : Written ts line) :
    ∃ m, scan (.between false) line = (m, ts) ∧ m.isOpen = false ∧
      (m.word = [] ∨ .word m.word ∈ ts) := by
  induction h with
  | nil => exact ⟨.between false, rfl, rfl, .inl rfl⟩
  | @last t s hw =>
    obtain ⟨m, us, hm, hus, hword, hs⟩ := hw.scan
    refine ⟨m, ?_, hm, ?_⟩
    · have := hs []
      rw [List.append_nil] at this
      rw [this]
      show (m, us ++ m.flush) = (m, [t])
      rw [hus]
    · rcases hword with hword | rfl
      · exact .inl hword
      · exact .inr List.mem_cons_self
  | @cons t t' ts s line b hw hb _ ih =>
    obtain ⟨m, us, hm, hus, -, hs⟩ := hw.scan
    obtain ⟨m', hline, hm', hword⟩ := ih
    refine ⟨m', ?_, hm', hword.imp_right (List.mem_cons_of_mem _)⟩
    rw [hs, scan_blank hm hb, emit_emit, hus, hline]
    rfl

/-! ## The line has no NUL -/

theorem Piece.nul_notMem {p : Piece} (h : 0 ∉ p.denotes) : 0 ∉ p.text := by
  cases p with
  | run c cs _ => exact h
  | escaped c =>
    rw [text, List.mem_cons, not_or]
    exact ⟨by decide, h⟩
  | single s _ =>
    simp only [text, List.cons_append, List.mem_cons, List.mem_append, List.not_mem_nil, or_false,
      not_or]
    exact ⟨by decide, h, by decide⟩
  | double s =>
    simp only [text, List.cons_append, List.mem_cons, List.mem_append, List.not_mem_nil, or_false,
      not_or]
    refine ⟨by decide, ?_, by decide⟩
    intro h0
    obtain ⟨c, hc, h0⟩ := List.mem_flatMap.1 h0
    have hne : c ≠ 0 := fun h' => h (h' ▸ hc)
    unfold escapeDouble at h0
    split at h0
    · rcases List.mem_cons.1 h0 with h0 | h0
      · exact absurd h0 (by decide)
      · exact hne (List.mem_singleton.1 h0).symm
    · exact hne (List.mem_singleton.1 h0).symm

theorem Writes.nul_notMem {t : Token} {s : Str} (h : Writes t s) (ht : ∀ w, t = .word w → 0 ∉ w) :
    0 ∉ s := by
  cases h with
  | op o => cases o <;> decide
  | word p ps =>
    have h0 := ht _ rfl
    intro hs
    obtain ⟨q, hq, hs⟩ := List.mem_flatMap.1 hs
    exact q.nul_notMem (fun h => h0 (List.mem_flatMap.2 ⟨q, hq, h⟩)) hs

theorem Written.nul_notMem {ts : List Token} {line : Str} (h : Written ts line)
    (hts : ∀ w, .word w ∈ ts → 0 ∉ w) : 0 ∉ line := by
  induction h with
  | nil => simp
  | last hw =>
    refine hw.nul_notMem ?_
    rintro w rfl
    exact hts w List.mem_cons_self
  | @cons t t' ts s line b hw hb _ ih =>
    rw [List.mem_append, List.mem_cons, not_or, not_or]
    refine ⟨hw.nul_notMem ?_, ?_, ih fun w hw => hts w (List.mem_cons_of_mem _ hw)⟩
    · rintro w rfl
      exact hts w List.mem_cons_self
    · rintro rfl
      exact absurd hb (by decide)

/-! ## Lexing -/

/-- **Lexing undoes quoting**: every way to write tokens whose words have no NUL and fit
    the buffer is read back as these tokens. -/
theorem lexing_written {ts : List Token} {line : Str} (h : Written ts line)
    (hts : ∀ w, Token.word w ∈ ts → 0 ∉ w ∧ w.length < wordSize) :
    lexing [] line = .ok (true, ts) := by
  obtain ⟨m, hscan, hm, hword⟩ := h.scan
  have h0 : 0 ∉ line := h.nul_notMem fun w hw => (hts w hw).1
  have hfit : WordsFit line := by
    unfold WordsFit
    rw [hscan]
    constructor
    · intro t ht
      cases t with
      | op o => cases o <;> decide
      | word w => exact (hts w ht).2
    · show m.word.length < wordSize
      rcases hword with hword | hword
      · rw [hword]; decide
      · exact (hts _ hword).2
  obtain ⟨b, us, hlex, hb, hus⟩ := lexing_scan h0 hfit
  rw [hscan] at hb hus
  have hbt : b = true := by
    rw [← Bool.not_eq_false, hb]
    show ¬m.isOpen = true
    rw [hm]
    decide
  rw [hlex, hbt, hus hbt]
  rfl

/-- The words `a b|` and the empty one, with an operator between them. -/
theorem lexing_written_mixed :
    lexing [] (str "a' b'\\| >> \"\"") =
      .ok (true, [.word (str "a b|"), .op .gtgt, .word []]) := by
  have ha : ∀ x ∈ [byte 'a'], IsPlain x := by
    intro x hx
    obtain rfl := List.mem_singleton.1 hx
    decide
  have hw : Written [.word (str "a b|"), .op .gtgt, .word []] (str "a' b'\\| >> \"\"") :=
    .cons (b := byte ' ')
      (.word (.run (byte 'a') [] ha) [.single (str " b") (by decide), .escaped (byte '|')])
      (by decide) (.cons (b := byte ' ') (.op .gtgt) (by decide) (.last (.word (.double []) [])))
  refine lexing_written hw ?_
  intro w hw
  simp only [List.mem_cons, Token.word.injEq, reduceCtorEq, List.not_mem_nil, or_false,
    false_or] at hw
  rcases hw with rfl | rfl <;> decide

end CShell
