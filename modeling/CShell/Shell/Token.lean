/-
  C-Shell formalization — bytes, strings and tokens (`lexer.h`).

  A string is the list of its bytes without the terminating NUL.  A token of
  the list `Token` is an operator, with the text `add_token` is given for it,
  or a word; the list replaces the `next` pointers.
-/
import CShell.Lib.CArray

namespace CShell

/-- A C string: its bytes, without the terminating NUL. -/
abbrev Str := List UInt8

/-- A character of the source as a byte. -/
def byte (c : Char) : UInt8 := UInt8.ofNat c.toNat

/-- The bytes of a literal of the source. -/
def str (s : String) : Str := s.toList.map byte

/-- The operators among `enum Token_type`. -/
inductive Op where
  | pipe | amp | semi | lt | gt | gtgt
  deriving DecidableEq, Repr

/-- The text of an operator token. -/
def Op.text : Op → Str
  | pipe => str "|"
  | amp => str "&"
  | semi => str ";"
  | lt => str "<"
  | gt => str ">"
  | gtgt => str ">>"

/-- `struct token`: an operator, or a `WORD` with its value. -/
inductive Token where
  | op (o : Op)
  | word (w : Str)
  deriving DecidableEq, Repr

/-- The `value` field. -/
def Token.value : Token → Str
  | op o => o.text
  | word w => w

@[simp] theorem Token.value_word (w : Str) : (Token.word w).value = w := rfl

end CShell
