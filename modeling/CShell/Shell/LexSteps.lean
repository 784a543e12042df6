/-
  C-Shell formalization — the lexer step by step.

  `LexState.step` is one round of a loop of `lexing`, `double_quote` or
  `single_quote`.  The state has the cursor `pos`, the word in its buffer and,
  for the bounds, where the word began.

  * `step_safe`: from a state in bounds the next one is in bounds, and nothing is
    read past the NUL or written past the buffer;
  * `lexingLoop_steps`: the functions of the lexer go through these steps;
  * `lexing_in_bounds`: so on a line of up to 1023 bytes `lexing` returns, and is in
    bounds all the way.
-/
import CShell.Shell.Automaton
import CShell.Lib.Exits
import Mathlib.Logic.Relation

namespace CShell

open Lib

/-! ## Steps -/

/-- Where the lexer is. -/
inductive LexState where
  /-- in the outer loop of `lexing` -/
  | outer (pos : ℕ) (tokens : List Token)
  /-- in its inner loop, for the word that began at `start` -/
  | word (start pos : ℕ) (w : Str) (tokens : List Token)
  /-- in the loop of `double_quote` -/
  | double (start pos : ℕ) (w : Str) (tokens : List Token)
  /-- in the loop of `single_quote` -/
  | single (start pos : ℕ) (w : Str) (tokens : List Token)
  /-- `lexing` has returned -/
  | done (result : Bool) (tokens : List Token)

namespace LexState

section
variable (line : Str)

/-- A round of the loop of `single_quote`. -/
def stepSingle (start pos : ℕ) (w : Str) (tokens : List Token) : Except Fault LexState := do
  let c ← readAt line pos
  if c = 0 then
    return done false tokens
  else if c = singleQuoteMark then
    return word start (pos + 1) w tokens
  else
    return single start (pos + 1) (← push wordSize w c) tokens

/-- A round of the loop of `double_quote`. -/
def stepDouble (start pos : ℕ) (w : Str) (tokens : List Token) : Except Fault LexState := do
  let c ← readAt line pos
  if c = 0 then
    return done false tokens
  else if c = doubleQuoteMark then
    return word start (pos + 1) w tokens
  else if c = backslash then
    let d ← readAt line (pos + 1)
    if d = 0 then
      return done false tokens
    else if d = doubleQuoteMark then
      return double start (pos + 2) (← push wordSize w doubleQuoteMark) tokens
    else if d = backslash then
      return double start (pos + 2) (← push wordSize w backslash) tokens
    else
      let w ← push wordSize w backslash
      return double start (pos + 2) (← push wordSize w d) tokens
  else
    return double start (pos + 1) (← push wordSize w c) tokens

/-- A round of the inner loop of `lexing`; where it ends, the word is added. -/
def stepWord (start pos : ℕ) (w : Str) (tokens : List Token) : Except Fault LexState := do
  let c ← readAt line pos
  if c = 0 || isSpace c || isSpecial c then
    let w ← terminate wordSize w
    return outer pos (addToken tokens (.word w))
  else if c = backslash then
    match ← backslashQuote line pos w with
    | none => return done false tokens
    | some (pos, w) => return word start pos w tokens
  else if c = doubleQuoteMark then
    return double start (pos + 1) w tokens
  else if c = singleQuoteMark then
    return single start (pos + 1) w tokens
  else
    return word start (pos + 1) (← push wordSize w c) tokens

/-- A round of the outer loop of `lexing`. -/
def stepOuter (pos : ℕ) (tokens : List Token) : Except Fault LexState := do
  let c ← readAt line pos
  if c = 0 then
    return done true tokens
  else if isSpace c then
    return outer (pos + 1) tokens
  else if c = byte '|' then
    return outer (pos + 1) (addToken tokens (.op .pipe))
  else if c = byte '&' then
    return outer (pos + 1) (addToken tokens (.op .amp))
  else if c = byte ';' then
    return outer (pos + 1) (addToken tokens (.op .semi))
  else if c = byte '<' then
    return outer (pos + 1) (addToken tokens (.op .lt))
  else if c = byte '>' then
    let d ← readAt line (pos + 1)
    if d = byte '>' then
      return outer (pos + 2) (addToken tokens (.op .gtgt))
    else
      return outer (pos + 1) (addToken tokens (.op .gt))
  else
    return word pos pos [] tokens

/-- The next state; none after `lexing` has returned. -/
def step : LexState → Except Fault (Option LexState)
  | outer pos tokens => some <$> stepOuter line pos tokens
  | word start pos w tokens => some <$> stepWord line start pos w tokens
  | double start pos w tokens => some <$> stepDouble line start pos w tokens
  | single start pos w tokens => some <$> stepSingle line start pos w tokens
  | done _ _ => .ok none

end

/-- The steps of the lexer on a line. -/
def Steps (line : Str) : LexState → LexState → Prop :=
  Relation.ReflTransGen fun s t => s.step line = .ok (some t)

/-! ## Bounds -/

/-- The cursor is not behind the NUL, and the word is not longer than what has
    been read since it began. -/
def InBounds (line : Str) : LexState → Prop
  | outer pos _ => pos ≤ line.length
  | word start pos w _ | double start pos w _ | single start pos w _ =>
    pos ≤ line.length ∧ start + w.length ≤ pos
  | done _ _ => True

section
variable {line : Str} {start pos : ℕ} {w : Str} {tokens : List Token}

/-- A byte that has been read can be added to the word. -/
theorem safe_append (hline : line.length < wordSize) (hlt : pos < line.length)
    (hw : start + w.length ≤ pos) (b : UInt8) :
    Safe (fun w' => start + w'.length ≤ pos + 1) (push wordSize w b) := by
  refine (safe_push b (by omega)).mono ?_ (fun _ h => h)
  rintro _ rfl
  rw [List.length_append, List.length_singleton]
  omega

theorem stepSingle_safe (hline : line.length < wordSize)
    (h : (single start pos w tokens).InBounds line) :
    Safe (InBounds line) (stepSingle line start pos w tokens) := by
  obtain ⟨hpos, hw⟩ := h
  refine (safe_readAt hpos).bind ?_
  intro c hc
  refine .ite (fun _ => trivial) ?_
  intro h0
  have hlt := hc h0
  refine .ite ?_ ?_
  · intro _
    exact ⟨hlt, Nat.le_succ_of_le hw⟩
  · intro _
    refine (safe_append hline hlt hw c).bind ?_
    intro w' hw'
    exact ⟨hlt, hw'⟩

theorem stepDouble_safe (hline : line.length < wordSize)
    (h : (double start pos w tokens).InBounds line) :
    Safe (InBounds line) (stepDouble line start pos w tokens) := by
  obtain ⟨hpos, hw⟩ := h
  refine (safe_readAt hpos).bind ?_
  intro c hc
  refine .ite (fun _ => trivial) ?_
  intro h0
  have hlt := hc h0
  refine .ite ?_ fun _ => .ite ?_ ?_
  · intro _
    exact ⟨hlt, Nat.le_succ_of_le hw⟩
  · intro _
    refine (safe_readAt hlt).bind ?_
    intro d hd
    refine .ite (fun _ => trivial) ?_
    intro hd0
    have hlt' := hd hd0
    -- two bytes are read, and one or two are written
    refine .ite ?_ fun _ => .ite ?_ ?_
    · intro _
      refine (safe_append hline hlt hw doubleQuoteMark).bind ?_
      intro w' hw'
      exact ⟨hlt', Nat.le_succ_of_le hw'⟩
    · intro _
      refine (safe_append hline hlt hw backslash).bind ?_
      intro w' hw'
      exact ⟨hlt', Nat.le_succ_of_le hw'⟩
    · intro _
      refine (safe_append hline hlt hw backslash).bind ?_
      intro w' hw'
      refine (safe_append hline hlt' hw' d).bind ?_
      intro w'' hw''
      exact ⟨hlt', hw''⟩
  · intro _
    refine (safe_append hline hlt hw c).bind ?_
    intro w' hw'
    exact ⟨hlt, hw'⟩

theorem backslashQuote_safe (hline : line.length < wordSize) (hlt : pos < line.length)
    (hw : start + w.length ≤ pos) :
    Safe (fun r => ∀ p ∈ r, p.1 ≤ line.length ∧ start + p.2.length ≤ p.1)
      (backslashQuote line pos w) := by
  refine (safe_readAt hlt).bind ?_
  intro c hc
  refine .ite ?_ ?_
  · intro _ p hp
    cases hp
  · intro h0
    have hlt' := hc h0
    refine (safe_append hline hlt hw c).bind ?_
    intro w' hw' p hp
    cases hp
    exact ⟨hlt', Nat.le_succ_of_le hw'⟩

theorem stepWord_safe (hline : line.length < wordSize)
    (h : (word start pos w tokens).InBounds line) :
    Safe (InBounds line) (stepWord line start pos w tokens) := by
  obtain ⟨hpos, hw⟩ := h
  refine (safe_readAt hpos).bind ?_
  intro c hc
  refine .ite ?_ ?_
  · -- the NUL behind the word is within the buffer even if it has 1023 bytes
    intro _
    refine (safe_terminate (by omega)).bind ?_
    rintro _ rfl
    exact hpos
  · intro hstop
    have hlt : pos < line.length := by
      refine hc ?_
      rintro rfl
      exact hstop rfl
    refine .ite ?_ fun _ => .ite ?_ fun _ => .ite ?_ ?_
    · intro _
      refine (backslashQuote_safe hline hlt hw).bind ?_
      rintro (_ | ⟨pos', w'⟩) hr
      · trivial
      · exact hr _ rfl
    · intro _
      exact ⟨hlt, Nat.le_succ_of_le hw⟩
    · intro _
      exact ⟨hlt, Nat.le_succ_of_le hw⟩
    · intro _
      refine (safe_append hline hlt hw c).bind ?_
      intro w' hw'
      exact ⟨hlt, hw'⟩

theorem stepOuter_safe (h : (outer pos tokens).InBounds line) :
    Safe (InBounds line) (stepOuter line pos tokens) := by
  refine (safe_readAt h).bind ?_
  intro c hc
  refine .ite (fun _ => trivial) ?_
  intro h0
  have hlt : pos + 1 ≤ line.length := hc h0
  -- a blank and the operators of one byte
  refine .ite (fun _ => hlt) fun _ => .ite (fun _ => hlt) fun _ => .ite (fun _ => hlt) fun _ =>
    .ite (fun _ => hlt) fun _ => .ite (fun _ => hlt) fun _ => .ite ?_ ?_
  · intro _
    refine (safe_readAt hlt).bind ?_
    intro d hd
    refine .ite ?_ (fun _ => hlt)
    intro hgt
    have hne : d ≠ 0 := by
      rw [hgt]
      decide
    exact hd hne
  · intro _
    exact ⟨Nat.le_of_lt hlt, Nat.le_refl _⟩

end

theorem safe_some {line : Str} {r : Except Fault LexState} (h : Safe (InBounds line) r) :
    Safe (fun next => ∀ t ∈ next, InBounds line t) (some <$> r) := by
  cases r with
  | ok s =>
    intro t ht
    cases ht
    exact h
  | error e => exact h

/-- **A step stays in bounds.** -/
theorem step_safe {line : Str} (hline : line.length < wordSize) {s : LexState}
    (h : s.InBounds line) : Safe (fun next => ∀ t ∈ next, InBounds line t) (s.step line) := by
  cases s with
  | outer pos tokens => exact safe_some (stepOuter_safe h)
  | word start pos w tokens => exact safe_some (stepWord_safe hline h)
  | double start pos w tokens => exact safe_some (stepDouble_safe hline h)
  | single start pos w tokens => exact safe_some (stepSingle_safe hline h)
  | done result tokens =>
    intro t ht
    cases ht

/-- **And so does a run.** -/
theorem Steps.inBounds {line : Str} (hline : line.length < wordSize) {s t : LexState}
    (h : Steps line s t) (hs : s.InBounds line) : t.InBounds line := by
  induction h with
  | refl => exact hs
  | tail _ hstep ih =>
    have hsafe := step_safe hline ih
    rw [hstep] at hsafe
    exact hsafe _ rfl

/-! ## The functions of the lexer -/

section
variable {line : Str} {n start pos : ℕ} {w : Str} {tokens : List Token}

/-- Where the inner loop goes on with the result of a quoting function. -/
def afterQuote (start : ℕ) (tokens : List Token) : Option (ℕ × Str) → LexState
  | none => done false tokens
  | some (pos, w) => word start pos w tokens

/-- The rest of the loop of `single_quote`, after a step of it. -/
def restSingle (line : Str) (n : ℕ) : LexState → Except Fault LexState
  | single start pos w tokens => afterQuote start tokens <$> singleQuoteLoop line n pos w
  | t => .ok t

theorem singleQuoteLoop_succ :
    afterQuote start tokens <$> singleQuoteLoop line (n + 1) pos w =
      stepSingle line start pos w tokens >>= restSingle line n := by
  rw [singleQuoteLoop, stepSingle, map_bind, bind_assoc]
  refine bind_congr fun c => ?_
  refine map_ite_eq rfl (map_ite_eq rfl ?_)
  rw [map_bind, bind_assoc]
  rfl

/-- The rest of the loop of `double_quote`, after a step of it. -/
def restDouble (line : Str) (n : ℕ) : LexState → Except Fault LexState
  | double start pos w tokens => afterQuote start tokens <$> doubleQuoteLoop line n pos w
  | t => .ok t

theorem doubleQuoteLoop_succ :
    afterQuote start tokens <$> doubleQuoteLoop line (n + 1) pos w =
      stepDouble line start pos w tokens >>= restDouble line n := by
  rw [doubleQuoteLoop, stepDouble, map_bind, bind_assoc]
  refine bind_congr fun c => ?_
  refine map_ite_eq rfl (map_ite_eq rfl (map_ite_eq ?_ ?_))
  · rw [map_bind, bind_assoc]
    refine bind_congr fun d => ?_
    refine map_ite_eq rfl (map_ite_eq ?_ (map_ite_eq ?_ ?_))
    · rw [map_bind, bind_assoc]
      rfl
    · rw [map_bind, bind_assoc]
      rfl
    · rw [map_bind, bind_assoc]
      refine bind_congr fun w' => ?_
      rw [map_bind, bind_assoc]
      rfl
  · rw [map_bind, bind_assoc]
    rfl

theorem singleQuoteLoop_steps {u : LexState}
    (h : afterQuote start tokens <$> singleQuoteLoop line n pos w = .ok u) :
    Steps line (single start pos w tokens) u := by
  induction n generalizing pos w start tokens with
  | zero => cases h
  | succ n ih =>
    rw [singleQuoteLoop_succ] at h
    obtain ⟨t, ht, h⟩ := exists_of_bind_eq_ok h
    have hstep : (single start pos w tokens).step line = .ok (some t) := by
      rw [step, ht]
      rfl
    cases t with
    | single => exact .head hstep (ih h)
    | _ => exact Except.ok.inj h ▸ .single hstep

theorem doubleQuoteLoop_steps {u : LexState}
    (h : afterQuote start tokens <$> doubleQuoteLoop line n pos w = .ok u) :
    Steps line (double start pos w tokens) u := by
  induction n generalizing pos w start tokens with
  | zero => cases h
  | succ n ih =>
    rw [doubleQuoteLoop_succ] at h
    obtain ⟨t, ht, h⟩ := exists_of_bind_eq_ok h
    have hstep : (double start pos w tokens).step line = .ok (some t) := by
      rw [step, ht]
      rfl
    cases t with
    | double => exact .head hstep (ih h)
    | _ => exact Except.ok.inj h ▸ .single hstep

/-- Where the outer loop goes on with the result of the inner one. -/
def afterWord (tokens : List Token) : Option (ℕ × Str) → Except Fault LexState
  | none => return done false tokens
  | some (pos, w) => do
    let w ← terminate wordSize w
    return outer pos (addToken tokens (.word w))

/-- The rest of the inner loop, from the result of a quoting function on. -/
def restQuoted (line : Str) (n : ℕ) (tokens : List Token) :
    Option (ℕ × Str) → Except Fault LexState
  | none => return done false tokens
  | some (pos, w) => wordLoop line n pos w >>= afterWord tokens

/-- The rest of the inner loop, after a step of it. -/
def restWord (line : Str) (n : ℕ) : LexState → Except Fault LexState
  | word _ pos w tokens => wordLoop line n pos w >>= afterWord tokens
  | double _ pos w tokens =>
    doubleQuoteLoop line (line.length + 1) pos w >>= restQuoted line n tokens
  | single _ pos w tokens =>
    singleQuoteLoop line (line.length + 1) pos w >>= restQuoted line n tokens
  | t => .ok t

theorem wordLoop_succ (start : ℕ) :
    wordLoop line (n + 1) pos w >>= afterWord tokens =
      stepWord line start pos w tokens >>= restWord line n := by
  rw [wordLoop, stepWord, bind_assoc, bind_assoc]
  refine bind_congr fun c => ?_
  refine bind_ite_eq ?_ (bind_ite_eq ?_ (bind_ite_eq ?_ (bind_ite_eq ?_ ?_)))
  · rw [pure_bind, afterWord, bind_assoc]
    rfl
  · rw [bind_assoc, bind_assoc]
    refine bind_congr fun r => ?_
    cases r with
    | none => rfl
    | some p => rfl
  · rw [bind_assoc, doubleQuote]
    refine bind_congr fun r => ?_
    cases r with
    | none => rfl
    | some p => rfl
  · rw [bind_assoc, singleQuote]
    refine bind_congr fun r => ?_
    cases r with
    | none => rfl
    | some p => rfl
  · rw [bind_assoc, bind_assoc]
    rfl

/-- A quotation in a word, and the rest of the word. -/
theorem restQuoted_steps {s u : LexState} {q : Except Fault (Option (ℕ × Str))}
    (hq : ∀ t, afterQuote start tokens <$> q = .ok t → Steps line s t)
    (hword : ∀ pos w, wordLoop line n pos w >>= afterWord tokens = .ok u →
      Steps line (word start pos w tokens) u)
    (h : q >>= restQuoted line n tokens = .ok u) : Steps line s u := by
  obtain ⟨r, rfl, h⟩ := exists_of_bind_eq_ok h
  cases r with
  | none => exact hq u h
  | some p => exact (hq (word start p.1 p.2 tokens) rfl).trans (hword p.1 p.2 h)

theorem wordLoop_steps {u : LexState} (h : wordLoop line n pos w >>= afterWord tokens = .ok u) :
    Steps line (word start pos w tokens) u := by
  induction n generalizing pos w start tokens with
  | zero => cases h
  | succ n ih =>
    rw [wordLoop_succ start] at h
    obtain ⟨t, ht, h⟩ := exists_of_bind_eq_ok h
    have hstep : (word start pos w tokens).step line = .ok (some t) := by
      rw [step, ht]
      rfl
    cases t with
    | word => exact .head hstep (ih h)
    | double =>
      exact .head hstep
        (restQuoted_steps (fun _ => doubleQuoteLoop_steps) (fun _ _ => ih) h)
    | single =>
      exact .head hstep
        (restQuoted_steps (fun _ => singleQuoteLoop_steps) (fun _ _ => ih) h)
    | _ => exact Except.ok.inj h ▸ .single hstep

/-- The rest of the outer loop, from the end of a word on. -/
def restOuter (line : Str) (n : ℕ) : LexState → Except Fault LexState
  | outer pos tokens => (fun r => done r.1 r.2) <$> lexingLoop line n pos tokens
  | t => .ok t

/-- The rest of the outer loop, after a step of it. -/
def restLexing (line : Str) (n : ℕ) : LexState → Except Fault LexState
  | word _ pos w tokens =>
    wordLoop line (line.length + 1) pos w >>= afterWord tokens >>= restOuter line n
  | t => restOuter line n t

theorem lexingLoop_succ :
    (fun r => done r.1 r.2) <$> lexingLoop line (n + 1) pos tokens =
      stepOuter line pos tokens >>= restLexing line n := by
  rw [lexingLoop, stepOuter, map_bind, bind_assoc]
  refine bind_congr fun c => ?_
  -- up to `>` a round of the function is a step
  refine map_ite_eq rfl (map_ite_eq rfl (map_ite_eq rfl (map_ite_eq rfl (map_ite_eq rfl
    (map_ite_eq rfl (map_ite_eq ?_ ?_))))))
  · rw [map_bind, bind_assoc]
    refine bind_congr fun d => ?_
    exact map_ite_eq rfl rfl
  · rw [map_bind, pure_bind, restLexing, bind_assoc]
    refine bind_congr fun r => ?_
    cases r with
    | none => rfl
    | some p =>
      simp only [afterWord, map_bind, bind_assoc]
      rfl

/-- **The lexer takes these steps.** -/
theorem lexingLoop_steps {u : LexState}
    (h : (fun r => done r.1 r.2) <$> lexingLoop line n pos tokens = .ok u) :
    Steps line (outer pos tokens) u := by
  induction n generalizing pos tokens with
  | zero => cases h
  | succ n ih =>
    rw [lexingLoop_succ] at h
    obtain ⟨t, ht, h⟩ := exists_of_bind_eq_ok h
    have hstep : (outer pos tokens).step line = .ok (some t) := by
      rw [step, ht]
      rfl
    cases t with
    | outer => exact .head hstep (ih h)
    | word start pos w tokens =>
      obtain ⟨t', ht', h⟩ := exists_of_bind_eq_ok h
      have hword : Steps line (word start pos w tokens) t' := wordLoop_steps ht'
      cases t' with
      | outer => exact .head hstep (hword.trans (ih h))
      | _ => exact .head hstep (Except.ok.inj h ▸ hword)
    | _ => exact Except.ok.inj h ▸ .single hstep

end

end LexState

/-- **The lexer stays in bounds**: on a line of up to 1023 bytes every step is in bounds and has a next
    one, and `lexing` returns at the end of these steps. -/
theorem lexing_in_bounds (line : Str) (hlen : line.length ≤ 1023) (h0 : 0 ∉ line)
    (tokens : List Token) :
    (∀ s, LexState.Steps line (.outer 0 tokens) s →
        s.InBounds line ∧ ∃ next, s.step line = .ok next) ∧
      ∃ result tokens', lexing tokens line = .ok (result, tokens') ∧
        LexState.Steps line (.outer 0 tokens) (.done result tokens') := by
  have hline : line.length < wordSize := Nat.lt_succ_of_le hlen
  constructor
  · intro s hs
    have hin : s.InBounds line := hs.inBounds hline (Nat.zero_le _)
    obtain ⟨next, hnext, -⟩ := (LexState.step_safe hline hin).exists_ok
    exact ⟨hin, next, hnext⟩
  · have hfit : WordsFit line := fits_scan (by simpa using hline)
    obtain ⟨result, tokens', hlex, -, -⟩ :=
      lexingLoop_scan h0 (line.length + 1) line [] tokens rfl (Nat.lt_succ_self _) hfit
    have hlexing : lexing tokens line = .ok (result, tokens') := hlex
    refine ⟨result, tokens', hlexing, LexState.lexingLoop_steps (n := line.length + 1) ?_⟩
    rw [lexing] at hlexing
    rw [hlexing]
    rfl

/-- A word of 1023 bytes fills the buffer. -/
theorem lexing_in_bounds_full :
    let line := List.replicate 1023 (byte 'a')
    (line.length ≤ 1023 ∧ 0 ∉ line) ∧
      ∃ result tokens, lexing [] line = .ok (result, tokens) := by
  intro line
  have hlen : line.length ≤ 1023 := Nat.le_of_eq List.length_replicate
  have h0 : 0 ∉ line := by
    intro h
    have := List.eq_of_mem_replicate h
    exact absurd this (by decide)
  obtain ⟨-, result, tokens, hlex, -⟩ := lexing_in_bounds line hlen h0 []
  exact ⟨⟨hlen, h0⟩, result, tokens, hlex⟩

end CShell
