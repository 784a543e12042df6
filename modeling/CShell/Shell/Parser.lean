/-
  C-Shell formalization — the parser (`parser.c`).

  The five functions of `parser.c` move the global cursor `current` along the
  list `Token` and call one another in tail position; here each takes the
  tokens from the cursor on and returns its result with the cursor at the end.

  * `parsing_accepts`: `parsing` accepts the empty line and the lines of the
    grammar `cmd ((PIPE | SEMI | AMP) cmd)* AMP?`, and no other.
-/
import CShell.Shell.Token
import Mathlib.Computability.Language

namespace CShell

open Computability

/-! ## The functions of `parser.c` -/

mutual

/-- `parse_arg`: after a word of a command. -/
def parseArg : List Token → Bool × List Token
  | [] => (true, [])
  | .word _ :: current => parseArg current
  | .op .lt :: current => parseTgt current
  | .op .gt :: current => parseTgt current
  | .op .gtgt :: current => parseTgt current
  | .op .pipe :: current => parseCmd current
  | .op .semi :: current => parseCmd current
  | .op .amp :: current => parseBg current

/-- `parse_cmd`: a command has to begin. -/
def parseCmd : List Token → Bool × List Token
  | [] => (false, [])
  | .word _ :: current => parseArg current
  | current => (false, current)

/-- `parse_tgt`: the name of a file has to follow. -/
def parseTgt : List Token → Bool × List Token
  | [] => (false, [])
  | .word _ :: current => parseArg current
  | current => (false, current)

/-- `parse_bg`: after `&` a command may begin. -/
def parseBg : List Token → Bool × List Token
  | [] => (true, [])
  | .word _ :: current => parseArg current
  | current => (false, current)

end

/-- `parse_line`: an empty line, or a command. -/
def parseLine : List Token → Bool × List Token
  | [] => (true, [])
  | .word _ :: current => parseArg current
  | current => (false, current)

/-- `parsing`: nothing is left over. -/
def parsing (tokens : List Token) : Bool :=
  (parseLine tokens).1 && (parseLine tokens).2.isEmpty

/-! ## The grammar -/

namespace Grammar

/-- One word. -/
def word : Language Token := Set.range fun w => [Token.word w]

/-- One operator. -/
def op (o : Op) : Language Token := {[Token.op o]}

/-- `<`, `>` or `>>`. -/
def redirect : Language Token := op .lt + op .gt + op .gtgt

/-- `|`, `;` or `&`. -/
def separator : Language Token := op .pipe + op .semi + op .amp

/-- `WORD (WORD | (LT | GT | GTGT) WORD)*` -/
def cmd : Language Token := word * (word + redirect * word)∗

/-- `cmd ((PIPE | SEMI | AMP) cmd)* AMP?` -/
def line : Language Token := cmd * (separator * cmd)∗ * (1 + op .amp)

/-- What may follow a word of a command. -/
def tail : Language Token := (word + redirect * word)∗ * ((separator * cmd)∗ * (1 + op .amp))

theorem line_eq : line = word * tail := by simp only [line, cmd, tail, mul_assoc]

/-- The equation `parse_arg` follows. -/
theorem tail_eq :
    tail = 1 + op .amp + word * tail + redirect * (word * tail) + separator * (word * tail) := by
  have hs : (separator * cmd)∗ * (1 + op .amp) = 1 + op .amp + separator * (word * tail) := by
    conv_lhs => rw [← Language.one_add_self_mul_kstar_eq_kstar]
    simp only [tail, cmd, add_mul, mul_assoc, one_mul]
  have ht : tail = (separator * cmd)∗ * (1 + op .amp) + (word + redirect * word) * tail := by
    conv_lhs => rw [tail, ← Language.one_add_self_mul_kstar_eq_kstar]
    simp only [tail, add_mul, mul_assoc, one_mul]
  rw [hs] at ht
  conv_lhs => rw [ht]
  simp only [add_mul, mul_assoc, add_assoc, add_comm (separator * _)]

theorem mem_word_mul {l : Language Token} {ts : List Token} :
    ts ∈ word * l ↔ ∃ w us, ts = .word w :: us ∧ us ∈ l := by
  rw [Language.mem_mul]
  constructor
  · rintro ⟨_, ⟨w, rfl⟩, us, hus, rfl⟩
    exact ⟨w, us, rfl, hus⟩
  · rintro ⟨w, us, rfl, hus⟩
    exact ⟨_, ⟨w, rfl⟩, us, hus, rfl⟩

theorem mem_op_mul {o : Op} {l : Language Token} {ts : List Token} :
    ts ∈ op o * l ↔ ∃ us, ts = .op o :: us ∧ us ∈ l := by
  rw [Language.mem_mul]
  constructor
  · rintro ⟨_, rfl, us, hus, rfl⟩
    exact ⟨us, rfl, hus⟩
  · rintro ⟨us, rfl, hus⟩
    exact ⟨_, rfl, us, hus, rfl⟩

/-- One token of a tail, by its kind. -/
theorem mem_tail {ts : List Token} : ts ∈ tail ↔ ts = [] ∨ ts = [.op .amp] ∨ ts ∈ word * tail ∨
    ∃ o us, ts = .op o :: us ∧ us ∈ word * tail := by
  conv_lhs => rw [tail_eq]
  simp only [Language.mem_add, Language.mem_one, redirect, separator, add_mul, mem_op_mul]
  have ha : ts ∈ op .amp ↔ ts = [.op .amp] := Iff.rfl
  rw [ha]
  constructor
  · rintro ((((h | h) | h) | (⟨us, h⟩ | ⟨us, h⟩) | ⟨us, h⟩) | (⟨us, h⟩ | ⟨us, h⟩) | ⟨us, h⟩)
    all_goals grind
  · rintro (h | h | h | ⟨o, us, h⟩)
    · simp [h]
    · simp [h]
    · simp [h]
    · cases o <;> grind

end Grammar

/-! ## Acceptance -/

/-- A function of the parser returned `1` at the end of the line. -/
def Accepts (r : Bool × List Token) : Prop := r.1 = true ∧ r.2 = []

/-- A word is expected: `parse_cmd` and `parse_tgt`. -/
theorem accepts_parseCmd {ts : List Token} (h : ∀ w us, ts = .word w :: us →
    (Accepts (parseArg us) ↔ us ∈ Grammar.tail)) :
    Accepts (parseCmd ts) ↔ ts ∈ Grammar.word * Grammar.tail := by
  rw [Grammar.mem_word_mul]
  match ts, h with
  | [], _ => simp [parseCmd, Accepts]
  | .op o :: us, _ => simp [parseCmd, Accepts]
  | .word w :: us, h => simp [parseCmd, h w us rfl]

theorem parseTgt_eq (ts : List Token) : parseTgt ts = parseCmd ts := by
  cases ts with
  | nil => rfl
  | cons t us => cases t <;> rfl

/-- Where the line may also end: `parse_bg`, and `parse_line`. -/
theorem accepts_parseBg (ts : List Token) :
    Accepts (parseBg ts) ↔ ts = [] ∨ Accepts (parseCmd ts) := by
  cases ts with
  | nil => simp [parseBg, Accepts]
  | cons t us => cases t <;> simp [parseBg, parseCmd]

theorem parseLine_eq (ts : List Token) : parseLine ts = parseBg ts := by
  cases ts with
  | nil => rfl
  | cons t us => cases t <;> rfl

theorem accepts_parseArg_op (o : Op) (ts : List Token) :
    Accepts (parseArg (.op o :: ts)) ↔ (o = .amp ∧ ts = []) ∨ Accepts (parseCmd ts) := by
  cases o <;> simp [parseArg, parseTgt_eq, accepts_parseBg]

/-- `parse_arg` accepts what may follow a word of a command. -/
theorem accepts_parseArg : ∀ ts : List Token, Accepts (parseArg ts) ↔ ts ∈ Grammar.tail
  | [] => by simp [parseArg, Accepts, Grammar.mem_tail]
  | .word w :: ts => by
    rw [parseArg, accepts_parseArg ts, @Grammar.mem_tail (.word w :: ts)]
    simp [Grammar.mem_word_mul]
  | .op o :: ts => by
    have ih := @accepts_parseCmd ts fun w us h => accepts_parseArg us
    rw [accepts_parseArg_op, ih, @Grammar.mem_tail (.op o :: ts)]
    simp [Grammar.mem_word_mul]
  termination_by ts => ts.length
  decreasing_by
  · exact Nat.lt_succ_self _
  · rw [h]; exact Nat.lt_succ_of_lt (Nat.lt_succ_self _)

/-- A line is accepted iff it is empty or a word with what may follow it. -/
theorem parsing_iff (tokens : List Token) :
    parsing tokens ↔ tokens = [] ∨ tokens ∈ Grammar.word * Grammar.tail := by
  have h : parsing tokens ↔ Accepts (parseLine tokens) := by simp [parsing, Accepts]
  rw [h, parseLine_eq, accepts_parseBg, accepts_parseCmd fun w us _ => accepts_parseArg us]

/-- Only `&` may stand at the end of a line. -/
theorem last_of_mem_tail : ∀ {ts : List Token}, ts ∈ Grammar.tail → ∀ o, .op o ∈ ts.getLast? → o = .amp
  | [], _, o, ho => by simp at ho
  | t :: ts, h, o, ho => by
    rcases Grammar.mem_tail.1 h with h | h | h | ⟨o', us, h, hus⟩
    · simp at h
    · simpa [h, eq_comm] using ho
    · obtain ⟨w, us, h, hus⟩ := Grammar.mem_word_mul.1 h
      obtain ⟨rfl, rfl⟩ := List.cons.inj h
      rw [List.getLast?_cons] at ho
      cases hlast : ts.getLast? with
      | none => simp [hlast] at ho
      | some u => exact last_of_mem_tail hus o (by simpa [hlast] using ho)
    · obtain ⟨rfl, rfl⟩ := List.cons.inj h
      obtain ⟨w, us, rfl, hus'⟩ := Grammar.mem_word_mul.1 hus
      rw [List.getLast?_cons, List.getLast?_cons] at ho
      cases hlast : us.getLast? with
      | none => simp [hlast] at ho
      | some u => exact last_of_mem_tail hus' o (by simpa [hlast] using ho)
  termination_by ts => ts.length

theorem last_of_parsing {ts : List Token} (h : parsing ts) : ∀ o, .op o ∈ ts.getLast? → o = .amp := by
  intro o ho
  rcases (parsing_iff ts).1 h with rfl | h
  · simp at ho
  · obtain ⟨w, us, rfl, hus⟩ := Grammar.mem_word_mul.1 h
    rw [List.getLast?_cons] at ho
    cases hlast : us.getLast? with
    | none => simp [hlast] at ho
    | some u => exact last_of_mem_tail hus o (by simpa [hlast] using ho)

/-- **The parser accepts its grammar**: the empty line and `line`, and no
    other list. -/
theorem parsing_accepts (tokens : List Token) :
    parsing tokens = true ↔ tokens = [] ∨ tokens ∈ Grammar.line := by
  rw [parsing_iff, Grammar.line_eq]

end CShell
