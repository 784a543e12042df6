/-
  C-Shell formalization — the lexer (`lexer.c`).

  The functions of `lexer.c` share one cursor `pos` into the line and the
  buffer `word[1024]` with its fill level `word_pos`; here the buffer is the
  list of the bytes written to it.  A quoting function returns the advanced
  cursor and buffer, or `none` for the result `0` (its callers then give up).
  `lexing` returns its result together with the list `Token`, to which
  `add_token` appends.  Each loop is bounded by the length of the line, which
  the cursor cannot outrun (`Shell.Automaton`).
-/
import CShell.Shell.Token

namespace CShell

open Lib

/-- The size of `word`. -/
def wordSize : ℕ := 1024

/-- The characters `lexing` skips between words. -/
def isSpace (c : UInt8) : Bool :=
  c = byte ' ' || c = byte '\t' || c = byte '\n' || c = byte '\r'

/-- The characters that end a word. -/
def isSpecial (c : UInt8) : Bool :=
  c = byte '|' || c = byte '&' || c = byte '>' || c = byte '<' || c = byte ';'

/-- `\` as a byte. -/
def backslash : UInt8 := 92

/-- `"` as a byte. -/
def doubleQuoteMark : UInt8 := 34

/-- `'` as a byte. -/
def singleQuoteMark : UInt8 := 39

/-- `add_token`. -/
def addToken (tokens : List Token) (t : Token) : List Token := tokens ++ [t]

/-- `backslash_quote`: the next character is taken as it is; `none` at the end of the line. -/
def backslashQuote (line : Str) (pos : ℕ) (word : Str) : Except Fault (Option (ℕ × Str)) := do
  let c ← readAt line (pos + 1)
  if c = 0 then
    return none
  let word ← push wordSize word c
  return some (pos + 2, word)

/-- The loop of `double_quote`. -/
def doubleQuoteLoop (line : Str) : ℕ → ℕ → Str → Except Fault (Option (ℕ × Str))
  | 0, _, _ => .error .fuel
  | n + 1, pos, word => do
    let c ← readAt line pos
    if c = 0 then
      return none
    else if c = doubleQuoteMark then
      return some (pos + 1, word)
    else if c = backslash then
      let d ← readAt line (pos + 1)
      if d = 0 then
        return none
      else if d = doubleQuoteMark then
        doubleQuoteLoop line n (pos + 2) (← push wordSize word doubleQuoteMark)
      else if d = backslash then
        doubleQuoteLoop line n (pos + 2) (← push wordSize word backslash)
      else
        let word ← push wordSize word backslash
        doubleQuoteLoop line n (pos + 2) (← push wordSize word d)
    else
      doubleQuoteLoop line n (pos + 1) (← push wordSize word c)

/-- `double_quote`, called at the opening mark. -/
def doubleQuote (line : Str) (pos : ℕ) (word : Str) : Except Fault (Option (ℕ × Str)) :=
  doubleQuoteLoop line (line.length + 1) (pos + 1) word

/-- The loop of `single_quote`. -/
def singleQuoteLoop (line : Str) : ℕ → ℕ → Str → Except Fault (Option (ℕ × Str))
  | 0, _, _ => .error .fuel
  | n + 1, pos, word => do
    let c ← readAt line pos
    if c = 0 then
      return none
    else if c = singleQuoteMark then
      return some (pos + 1, word)
    else
      singleQuoteLoop line n (pos + 1) (← push wordSize word c)

/-- `single_quote`, called at the opening mark. -/
def singleQuote (line : Str) (pos : ℕ) (word : Str) : Except Fault (Option (ℕ × Str)) :=
  singleQuoteLoop line (line.length + 1) (pos + 1) word

/-- The inner loop of `lexing`, which collects one word. -/
def wordLoop (line : Str) : ℕ → ℕ → Str → Except Fault (Option (ℕ × Str))
  | 0, _, _ => .error .fuel
  | n + 1, pos, word => do
    let c ← readAt line pos
    if c = 0 || isSpace c || isSpecial c then
      return some (pos, word)
    else if c = backslash then
      match ← backslashQuote line pos word with
      | none => return none
      | some (pos, word) => wordLoop line n pos word
    else if c = doubleQuoteMark then
      match ← doubleQuote line pos word with
      | none => return none
      | some (pos, word) => wordLoop line n pos word
    else if c = singleQuoteMark then
      match ← singleQuote line pos word with
      | none => return none
      | some (pos, word) => wordLoop line n pos word
    else
      wordLoop line n (pos + 1) (← push wordSize word c)

/-- The outer loop of `lexing`. -/
def lexingLoop (line : Str) : ℕ → ℕ → List Token → Except Fault (Bool × List Token)
  | 0, _, _ => .error .fuel
  | n + 1, pos, tokens => do
    let c ← readAt line pos
    if c = 0 then
      return (true, tokens)
    else if isSpace c then
      lexingLoop line n (pos + 1) tokens
    else if c = byte '|' then
      lexingLoop line n (pos + 1) (addToken tokens (.op .pipe))
    else if c = byte '&' then
      lexingLoop line n (pos + 1) (addToken tokens (.op .amp))
    else if c = byte ';' then
      lexingLoop line n (pos + 1) (addToken tokens (.op .semi))
    else if c = byte '<' then
      lexingLoop line n (pos + 1) (addToken tokens (.op .lt))
    else if c = byte '>' then
      let d ← readAt line (pos + 1)
      if d = byte '>' then
        lexingLoop line n (pos + 2) (addToken tokens (.op .gtgt))
      else
        lexingLoop line n (pos + 1) (addToken tokens (.op .gt))
    else
      match ← wordLoop line (line.length + 1) pos [] with
      | none => return (false, tokens)
      | some (pos, word) =>
        let word ← terminate wordSize word
        lexingLoop line n pos (addToken tokens (.word word))

/-- `lexing(line)` with the global list `Token` at its start. -/
def lexing (tokens : List Token) (line : Str) : Except Fault (Bool × List Token) :=
  lexingLoop line (line.length + 1) 0 tokens

end CShell
