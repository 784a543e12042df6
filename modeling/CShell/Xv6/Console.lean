/-
  xv6 formalization — input from the console (`console.c`).

  `consoleintr`, which `uartintr` calls for each key, and `consoleread`, as the code of a
  monitor whose lock is `cons.lock`: one thread is the interrupt handler, the others are the
  processes.  The indices `r`, `w` and `e` are 32-bit counters that wrap, as in the code.

  The state carries, besides `cons`, the keys that were typed, each with the number of bytes
  in the buffer at that time, what was sent to the screen to echo them, and the bytes that
  were taken out, each with the process that took it.

  `LineEdit` is the same without a buffer: a line that is edited, and what has been entered.

  * `console_lines`: what was taken out, and then what is in the buffer, is what the keys make
    of the lines, and is what the screen shows;
  * `consoleread_returns`: what a read returns, and why it returns;
  * `console_no_lost_wakeup`: who sleeps in `consoleread` has nothing to read.
-/
import CShell.Lib.Inside
import CShell.Lib.Ring
import CShell.Xv6.Mlfq

namespace Xv6

open Lib

/-- `INPUT_BUF_SIZE` -/
abbrev inputBufSize : ℕ := 128

instance : NeZero inputBufSize := ⟨by decide⟩

/-- `C(x)`, for a letter `x` -/
def ctrl (x : UInt8) : UInt8 := x - 64

/-- `C('D')`, the end of file -/
def ctrlD : UInt8 := ctrl 68

/-- `C('H')`, a backspace -/
def ctrlH : UInt8 := ctrl 72

/-- `C('P')`, which prints the processes -/
def ctrlP : UInt8 := ctrl 80

/-- `C('U')`, which erases the line -/
def ctrlU : UInt8 := ctrl 85

/-- The delete key. -/
def delKey : UInt8 := 127

/-- `\n` as a byte. -/
def newline : UInt8 := 10

/-- `\r` as a byte. -/
def carriageReturn : UInt8 := 13

/-- `cons`, the keys, the screen and what has been read. -/
structure Console where
  /-- `buf` with `r` and `e` -/
  cons : Ring UInt8 inputBufSize
  w : UInt32
  typed : List (ℕ × UInt8)
  /-- the arguments of `consputc`; `none` is `BACKSPACE` -/
  echo : List (Option UInt8)
  taken : List (Slot × UInt8)

namespace Console

/-- After `consoleinit`. -/
def init (data : Fin inputBufSize → UInt8) : Console where
  cons := ⟨data, 0, 0⟩
  w := 0
  typed := []
  echo := []
  taken := []

/-- `cons.e--; consputc(BACKSPACE)` -/
def erase (x : Console) : Console := { x with cons := x.cons.unpush, echo := x.echo ++ [none] }

/-- The loop for `C('U')`. -/
def killLine : ℕ → Console → Console
  | 0, x => x
  | fuel + 1, x =>
    if x.cons.nwrite ≠ x.w ∧ x.cons.back ≠ newline then killLine fuel x.erase else x

/-- The key is recorded. -/
def typing (c : UInt8) (x : Console) : Console :=
  { x with typed := x.typed ++ [(x.cons.size, c)] }

/-- `consputc(c)`, and `c` is put into the buffer. -/
def store (c : UInt8) (x : Console) : Console :=
  { x with cons := x.cons.push c, echo := x.echo ++ [some c] }

end Console

/-- Why `consoleread` returns. -/
inductive ReadEnd where
  | full
  | line
  | eof
  /-- `either_copyout` has failed -/
  | fault
  | killed
  deriving DecidableEq, Repr

/-- Who uses the console. -/
inductive ConsThread where
  /-- the interrupt handler -/
  | uart
  | proc (p : Slot)
  deriving DecidableEq

/-- Where a thread is in the code of the console. -/
inductive ConsPc where
  | user
  | intr (c : UInt8)
  /-- before `wakeup` in `consoleintr` -/
  | wake
  /-- before `release` in `consoleintr` -/
  | intrRet
  /-- in the loop of `consoleread`, with these bytes of `target` copied out -/
  | read (target : ℕ) (got : List UInt8)
  | ret (target : ℕ) (got : List UInt8) (why : ReadEnd)
  deriving DecidableEq, Repr

/-- What comes from outside: a key, a call, and what `killed` and `either_copyout` answer. -/
inductive ConsIn where
  | key (c : UInt8)
  | read (n : ℕ)
  | env (killed copyout : Bool)

/-- The body of `consoleintr`. -/
def consoleintr (c : UInt8) (x : Console) : MonitorCmd Console ConsPc Unit :=
  if c = ctrlP then .update (x.typing c) .intrRet
  else if c = ctrlU then
    .update ((x.typing c).killLine (inputBufSize + 1)) .intrRet
  else if c = ctrlH ∨ c = delKey then
    if x.cons.nwrite ≠ x.w then .update (x.typing c).erase .intrRet
    else .update (x.typing c) .intrRet
  else if c ≠ 0 ∧ x.cons.nwrite - x.cons.nread < UInt32.ofNat inputBufSize then
    let c' := if c = carriageReturn then newline else c
    let y := (x.typing c).store c'
    if c' = newline ∨ c' = ctrlD ∨ y.cons.nwrite - y.cons.nread = UInt32.ofNat inputBufSize then
      .update { y with w := y.cons.nwrite } .wake
    else .update y .intrRet
  else .update (x.typing c) .intrRet

/-- `c = cons.buf[cons.r++ % INPUT_BUF_SIZE]` -/
def Console.take (p : Slot) (x : Console) : Console :=
  { x with cons := x.cons.pop, taken := x.taken ++ [(p, x.cons.front)] }

/-- The loop of `consoleread`; `n` is `target` less what has been copied out. -/
def consoleread (p : Slot) (target : ℕ) (got : List UInt8) (killed copyout : Bool) (x : Console) :
    MonitorCmd Console ConsPc Unit :=
  if got.length < target then
    if x.cons.nread = x.w then
      if killed then .update x (.ret target got .killed) else .wait () (.read target got)
    else
      let c := x.cons.front
      if c = ctrlD then
        -- `cons.r--` puts it back, unless nothing has been copied out
        if got = [] then .update (x.take p) (.ret target got .eof)
        else .update x (.ret target got .eof)
      else if copyout = false then .update (x.take p) (.ret target got .fault)
      else if c = newline then .update (x.take p) (.ret target (got ++ [c]) .line)
      else .update (x.take p) (.read target (got ++ [c]))
  else .update x (.ret target got .full)

/-- The code of the console as a monitor. -/
def consMonitor : Monitor Console ConsThread ConsPc Unit ConsIn where
  threads := .uart :: (List.finRange nproc).map .proc
  mem_threads := by
    intro t
    cases t with
    | uart => exact List.mem_cons_self
    | proc p => exact List.mem_cons_of_mem _ (List.mem_map_of_mem (List.mem_finRange p))
  outside _ _ _ _ := none
  enter a t pc :=
    match a, t, pc with
    | .key c, .uart, .user => some (.intr c)
    | .read n, .proc _, .user => some (.read n [])
    | _, _, _ => none
  code a t pc x :=
    match a, t, pc with
    | .env _ _, .uart, .intr c => some (consoleintr c x)
    | .env _ _, .uart, .wake => some (.wakeup () .intrRet)
    | .env _ _, .uart, .intrRet => some (.release .user)
    | .env killed copyout, .proc p, .read target got =>
      some (consoleread p target got killed copyout x)
    | .env _ _, .proc _, .ret _ _ _ => some (.release .user)
    | _, _, _ => none

/-- The console and its threads. -/
abbrev Consoles := MonitorState Console ConsThread ConsPc Unit

/-- Nobody is in the code. -/
def Consoles.init (data : Fin inputBufSize → UInt8) : Consoles :=
  Monitor.init (.init data) fun _ => .user

/-! ## Editing without a buffer -/

/-- A line editor without a buffer. -/
structure LineEdit where
  /-- what has been entered -/
  done : List UInt8
  /-- the line that is edited -/
  line : List UInt8
  deriving DecidableEq

/-- A key, typed while `n` bytes wait to be read or entered. -/
def LineEdit.key (l : LineEdit) (n : ℕ) (c : UInt8) : LineEdit :=
  if c = ctrlP then l
  else if c = ctrlU then { l with line := [] }
  else if c = ctrlH ∨ c = delKey then { l with line := l.line.dropLast }
  else if c = 0 ∨ inputBufSize ≤ n then l
  else
    let c := if c = carriageReturn then newline else c
    if c = newline ∨ c = ctrlD ∨ n + 1 = inputBufSize then ⟨l.done ++ l.line ++ [c], []⟩
    else { l with line := l.line ++ [c] }

/-- All keys, one after the other. -/
def LineEdit.run (typed : List (ℕ × UInt8)) : LineEdit :=
  typed.foldl (fun l k => l.key k.1 k.2) ⟨[], []⟩

/-- What the screen shows. -/
def screen (echo : List (Option UInt8)) : List UInt8 :=
  echo.foldl (fun shown c => match c with | some c => shown ++ [c] | none => shown.dropLast) []

/-! ## The invariant -/

namespace Console

/-- The number of bytes that may be read. -/
def ready (x : Console) : ℕ := (x.w - x.cons.nread).toNat

/-- The invariant of the console. -/
structure Ok (x : Console) : Prop where
  size : x.cons.size ≤ inputBufSize
  ready : x.ready ≤ x.cons.size
  edit : LineEdit.run x.typed =
    ⟨x.taken.map Prod.snd ++ x.cons.contents.take x.ready, x.cons.contents.drop x.ready⟩
  line : newline ∉ x.cons.contents.drop x.ready
  screen : screen x.echo = x.taken.map Prod.snd ++ x.cons.contents

theorem ok_init (data : Fin inputBufSize → UInt8) : (Console.init data).Ok := by
  have hsize : (Console.init data).cons.size = 0 := Ring.empty_iff.1 rfl
  have hnil : (Console.init data).cons.contents = [] := by
    rw [← List.length_eq_zero_iff, Ring.contents_length, hsize]
  refine ⟨hsize ▸ Nat.zero_le _, Nat.le_refl _, ?_, ?_, ?_⟩
  · rw [hnil, List.take_nil, List.drop_nil]
    rfl
  · rw [hnil, List.drop_nil]
    exact List.not_mem_nil
  · rw [hnil]
    rfl

variable {x : Console} {c : UInt8}

theorem w_eq (x : Console) : x.w = x.cons.nread + UInt32.ofNat x.ready :=
  Ring.nwrite_eq (r := { x.cons with nwrite := x.w })

/-- `r == w` -/
theorem ready_eq_zero : x.cons.nread = x.w ↔ x.ready = 0 :=
  Ring.empty_iff (r := { x.cons with nwrite := x.w })

/-- `e == w` -/
theorem ready_eq_size : x.cons.nwrite = x.w ↔ x.ready = x.cons.size := by
  constructor
  · intro h
    rw [ready, ← h]
    rfl
  · intro h
    rw [w_eq x, h]
    exact Ring.nwrite_eq

theorem run_append (typed : List (ℕ × UInt8)) (n : ℕ) (c : UInt8) :
    LineEdit.run (typed ++ [(n, c)]) = (LineEdit.run typed).key n c := by
  rw [LineEdit.run, List.foldl_append]
  rfl

theorem screen_append (echo : List (Option UInt8)) (c : UInt8) :
    Xv6.screen (echo ++ [some c]) = Xv6.screen echo ++ [c] := by
  rw [Xv6.screen, List.foldl_append]
  rfl

theorem screen_erase (echo : List (Option UInt8)) :
    Xv6.screen (echo ++ [none]) = (Xv6.screen echo).dropLast := by
  rw [Xv6.screen, List.foldl_append]
  rfl

/-- What is kept while a line is edited: the line may be shorter than what the keys say. -/
structure Editing (l : LineEdit) (x : Console) : Prop where
  size : x.cons.size ≤ inputBufSize
  ready : x.ready ≤ x.cons.size
  done : l.done = x.taken.map Prod.snd ++ x.cons.contents.take x.ready
  line : newline ∉ x.cons.contents.drop x.ready
  screen : Xv6.screen x.echo = x.taken.map Prod.snd ++ x.cons.contents

theorem Ok.editing (h : x.Ok) (c : UInt8) : (x.typing c).Editing (LineEdit.run x.typed) :=
  ⟨h.size, h.ready, by rw [h.edit]; rfl, h.line, h.screen⟩

theorem Editing.erase {l : LineEdit} (h : x.Editing l) (hne : x.cons.nwrite ≠ x.w) :
    x.erase.Editing l ∧
      x.erase.cons.contents.drop x.ready = (x.cons.contents.drop x.ready).dropLast := by
  have hlt : x.ready < x.cons.size := by
    refine Nat.lt_of_le_of_ne h.ready fun heq => hne ?_
    exact ready_eq_size.2 heq
  have hpos : 0 < x.cons.size := by omega
  have hsize := Ring.size_unpush hpos
  have hcontents := Ring.contents_unpush hpos
  have hlen : x.cons.unpush.contents.length = x.cons.unpush.size := Ring.contents_length
  have htake : x.cons.unpush.contents.take x.ready = x.cons.contents.take x.ready := by
    rw [hcontents, List.take_append_of_le_length (by omega)]
  have hdrop : x.cons.contents.drop x.ready = x.cons.unpush.contents.drop x.ready ++ [x.cons.back] := by
    rw [hcontents, List.drop_append_of_le_length (by omega)]
  refine ⟨⟨?_, ?_, ?_, ?_, ?_⟩, ?_⟩
  · have := h.size
    show x.cons.unpush.size ≤ inputBufSize
    omega
  · show x.ready ≤ x.cons.unpush.size
    omega
  · show l.done = x.taken.map Prod.snd ++ x.cons.unpush.contents.take x.ready
    rw [htake]
    exact h.done
  · intro hmem
    refine h.line ?_
    rw [hdrop]
    exact List.mem_append_left _ hmem
  · show Xv6.screen (x.echo ++ [none]) = x.taken.map Prod.snd ++ x.cons.unpush.contents
    rw [screen_erase, h.screen, hcontents, ← List.append_assoc, List.dropLast_concat]
  · show x.cons.unpush.contents.drop x.ready = _
    rw [hdrop, List.dropLast_concat]

theorem killLine_fields (fuel : ℕ) (x : Console) :
    (x.killLine fuel).typed = x.typed ∧ (x.killLine fuel).taken = x.taken ∧
      (x.killLine fuel).w = x.w ∧ (x.killLine fuel).cons.nread = x.cons.nread := by
  induction fuel generalizing x with
  | zero => exact ⟨rfl, rfl, rfl, rfl⟩
  | succ fuel ih =>
    rw [Console.killLine]
    split
    case isTrue => exact ih x.erase
    case isFalse => exact ⟨rfl, rfl, rfl, rfl⟩

/-- `C('U')` erases the whole line. -/
theorem Editing.killLine {l : LineEdit} (fuel : ℕ) (h : x.Editing l)
    (hf : x.cons.size < x.ready + fuel) :
    (x.killLine fuel).Editing l ∧ (x.killLine fuel).cons.contents.drop x.ready = [] := by
  induction fuel generalizing x with
  | zero =>
    have := h.ready
    omega
  | succ fuel ih =>
    have hlen : x.cons.contents.length = x.cons.size := Ring.contents_length
    rw [Console.killLine]
    split
    case isTrue hne =>
      obtain ⟨herase, -⟩ := h.erase hne.1
      have hlt : x.ready < x.cons.size :=
        Nat.lt_of_le_of_ne h.ready fun heq => hne.1 (ready_eq_size.2 heq)
      have hsize := Ring.size_unpush (r := x.cons) (by omega)
      exact ih herase (show x.cons.unpush.size < x.ready + fuel by omega)
    case isFalse hstop =>
      refine ⟨h, ?_⟩
      by_cases heq : x.cons.nwrite = x.w
      · rw [List.drop_eq_nil_iff, hlen]
        exact Nat.le_of_eq (ready_eq_size.1 heq).symm
      · -- the byte before `e` is in the line, where there is no newline
        have hlt : x.ready < x.cons.size :=
          Nat.lt_of_le_of_ne h.ready fun h' => heq (ready_eq_size.2 h')
        have hback : x.cons.back = newline := by
          by_contra hb
          exact hstop ⟨heq, hb⟩
        have hpos : 0 < x.cons.size := by omega
        have hsize := Ring.size_unpush hpos
        have hlen' : x.cons.unpush.contents.length = x.cons.unpush.size := Ring.contents_length
        refine absurd ?_ h.line
        rw [Ring.contents_unpush hpos, List.drop_append_of_le_length (by omega), hback]
        exact List.mem_append_right _ (List.mem_singleton_self _)

/-- After a key that leaves this line. -/
theorem Editing.ok {l : LineEdit} (h : x.Editing l)
    (hrun : LineEdit.run x.typed = ⟨l.done, x.cons.contents.drop x.ready⟩) : x.Ok :=
  ⟨h.size, h.ready, by rw [hrun, h.done], h.line, h.screen⟩

theorem run_typing (x : Console) (c : UInt8) :
    LineEdit.run (x.typing c).typed = (LineEdit.run x.typed).key x.cons.size c :=
  run_append x.typed x.cons.size c

/-- A byte is stored. -/
theorem Ok.store (h : x.Ok) (hlt : x.cons.size < inputBufSize) (c : UInt8) :
    (x.store c).cons.size = x.cons.size + 1 ∧
      (x.store c).cons.contents = x.cons.contents ++ [c] ∧
      (x.store c).cons.contents.take x.ready = x.cons.contents.take x.ready ∧
      (x.store c).cons.contents.drop x.ready = x.cons.contents.drop x.ready ++ [c] := by
  have hsmall : x.cons.size + 1 < 2 ^ 32 := Nat.lt_of_lt_of_le (Nat.succ_lt_succ hlt) (by decide)
  have hlen : x.cons.contents.length = x.cons.size := Ring.contents_length
  have hready := h.ready
  have hcontents : (x.store c).cons.contents = x.cons.contents ++ [c] :=
    Ring.contents_push (by decide) hlt hsmall c
  refine ⟨Ring.size_push c hsmall, hcontents, ?_, ?_⟩
  · rw [hcontents, List.take_append_of_le_length (by omega)]
  · rw [hcontents, List.drop_append_of_le_length (by omega)]

/-- The test of `e - r` against the size of the buffer. -/
theorem room_iff : x.cons.nwrite - x.cons.nread < UInt32.ofNat inputBufSize ↔
    x.cons.size < inputBufSize := by
  rw [UInt32.lt_iff_toNat_lt]
  rfl

theorem full_iff : x.cons.nwrite - x.cons.nread = UInt32.ofNat inputBufSize ↔
    x.cons.size = inputBufSize := by
  rw [← UInt32.toNat_inj]
  rfl

theorem Ok.screen_store (h : x.Ok) (hlt : x.cons.size < inputBufSize) (c : UInt8) :
    Xv6.screen (x.store c).echo = x.taken.map Prod.snd ++ (x.store c).cons.contents := by
  rw [(h.store hlt c).2.1, ← List.append_assoc, ← h.screen]
  exact screen_append x.echo c

/-- The line grows by a byte. -/
theorem Ok.grow (h : x.Ok) (hlt : x.cons.size < inputBufSize) {k c : UInt8} (hc : c ≠ newline)
    (hrun : LineEdit.run (x.typing k).typed =
      { LineEdit.run x.typed with line := (LineEdit.run x.typed).line ++ [c] }) :
    ((x.typing k).store c).Ok := by
  obtain ⟨hsize, -, htake, hdrop⟩ := h.store hlt c
  have hready := h.ready
  refine ⟨?_, ?_, ?_, ?_, h.screen_store hlt c⟩
  · show (x.store c).cons.size ≤ inputBufSize
    omega
  · show x.ready ≤ (x.store c).cons.size
    omega
  · refine hrun.trans ?_
    rw [h.edit]
    exact congrArg₂ LineEdit.mk (congrArg _ htake.symm) hdrop.symm
  · show newline ∉ (x.store c).cons.contents.drop x.ready
    rw [hdrop, List.mem_append, List.mem_singleton]
    rintro (hmem | heq)
    · exact h.line hmem
    · exact hc heq.symm

/-- The line is entered. -/
theorem Ok.enter (h : x.Ok) (hlt : x.cons.size < inputBufSize) {k c : UInt8}
    (hrun : LineEdit.run (x.typing k).typed =
      ⟨(LineEdit.run x.typed).done ++ (LineEdit.run x.typed).line ++ [c], []⟩) :
    Ok { (x.typing k).store c with w := ((x.typing k).store c).cons.nwrite } := by
  obtain ⟨hsize, hcontents, -, -⟩ := h.store hlt c
  have hlen : (x.store c).cons.contents.length = (x.store c).cons.size := Ring.contents_length
  -- all bytes may be read now
  have hnil : (x.store c).cons.contents.drop (x.store c).cons.size = [] :=
    List.drop_eq_nil_of_le (Nat.le_of_eq hlen)
  have hall : (x.store c).cons.contents.take (x.store c).cons.size = (x.store c).cons.contents :=
    List.take_of_length_le (Nat.le_of_eq hlen)
  refine ⟨?_, Nat.le_refl _, ?_, ?_, h.screen_store hlt c⟩
  · show (x.store c).cons.size ≤ inputBufSize
    omega
  · refine hrun.trans ?_
    rw [h.edit]
    refine congrArg₂ LineEdit.mk ?_ hnil.symm
    show _ = x.taken.map Prod.snd ++ (x.store c).cons.contents.take (x.store c).cons.size
    rw [hall, hcontents, List.append_assoc (x.taken.map Prod.snd), List.take_append_drop,
      List.append_assoc]
  · show newline ∉ (x.store c).cons.contents.drop (x.store c).cons.size
    rw [hnil]
    exact List.not_mem_nil

/-- **A key**: the buffer changes as the line does. -/
theorem Ok.consoleintr (h : x.Ok) (c : UInt8) :
    ∃ y pc, consoleintr c x = .update y pc ∧ y.Ok ∧ y.taken = x.taken ∧
      y.cons.nread = x.cons.nread ∧ (y.w = x.w ∧ pc = .intrRet ∨ pc = .wake) := by
  have hrun := run_typing x c
  have hedit := h.editing c
  have hdrop : x.cons.contents.drop x.ready = (LineEdit.run x.typed).line := by
    rw [h.edit]
  rw [Xv6.consoleintr]
  rw [LineEdit.key] at hrun
  by_cases hp : c = ctrlP
  · rw [if_pos hp] at hrun ⊢
    refine ⟨_, _, rfl, hedit.ok ?_, rfl, rfl, .inl ⟨rfl, rfl⟩⟩
    exact hrun.trans (congrArg (LineEdit.mk _) hdrop.symm)
  rw [if_neg hp] at hrun ⊢
  by_cases hu : c = ctrlU
  · rw [if_pos hu] at hrun ⊢
    have hsize := h.size
    obtain ⟨htyped, htaken, hw, hread⟩ := (x.typing c).killLine_fields (inputBufSize + 1)
    obtain ⟨hkill, hnil⟩ := hedit.killLine (inputBufSize + 1)
      (show x.cons.size < x.ready + (inputBufSize + 1) by omega)
    refine ⟨_, _, rfl, hkill.ok ?_, htaken, hread, .inl ⟨hw, rfl⟩⟩
    rw [htyped, hrun, Console.ready, hw, hread]
    exact congrArg (LineEdit.mk _) hnil.symm
  rw [if_neg hu] at hrun ⊢
  by_cases hh : c = ctrlH ∨ c = delKey
  · rw [if_pos hh] at hrun ⊢
    split
    case isTrue hne =>
      obtain ⟨herase, hdrop'⟩ := hedit.erase hne
      refine ⟨_, _, rfl, herase.ok ?_, rfl, rfl, .inl ⟨rfl, rfl⟩⟩
      refine hrun.trans (congrArg (LineEdit.mk _) ?_)
      rw [← hdrop]
      exact hdrop'.symm
    case isFalse heq =>
      -- there is nothing in the line
      refine ⟨_, _, rfl, hedit.ok ?_, rfl, rfl, .inl ⟨rfl, rfl⟩⟩
      have hlen : x.cons.contents.length = x.cons.size := Ring.contents_length
      have hnil : x.cons.contents.drop x.ready = [] := by
        rw [List.drop_eq_nil_iff, hlen]
        exact Nat.le_of_eq (ready_eq_size.1 (not_not.1 heq)).symm
      refine hrun.trans (congrArg (LineEdit.mk _) ?_)
      rw [← hdrop, hnil]
      exact hnil.symm
  rw [if_neg hh] at hrun ⊢
  by_cases hroom : c ≠ 0 ∧ x.cons.nwrite - x.cons.nread < UInt32.ofNat inputBufSize
  · have hlt := room_iff.1 hroom.2
    have hstays : ¬(c = 0 ∨ inputBufSize ≤ x.cons.size) := by
      rintro (h0 | hfull)
      · exact hroom.1 h0
      · omega
    rw [if_neg hstays] at hrun
    rw [if_pos hroom]
    obtain ⟨c', hc'⟩ : ∃ c', c' = if c = carriageReturn then newline else c := ⟨_, rfl⟩
    rw [← hc'] at hrun ⊢
    have hfull : ((x.typing c).store c').cons.nwrite - ((x.typing c).store c').cons.nread =
        UInt32.ofNat inputBufSize ↔ x.cons.size + 1 = inputBufSize := by
      rw [full_iff, ← (h.store hlt c').1]
      rfl
    simp only at hrun ⊢
    split
    case isTrue hend =>
      rw [hfull] at hend
      rw [if_pos hend] at hrun
      exact ⟨_, _, rfl, h.enter hlt hrun, rfl, rfl, .inr rfl⟩
    case isFalse hend =>
      rw [hfull] at hend
      rw [if_neg hend] at hrun
      exact ⟨_, _, rfl, h.grow hlt (fun heq => hend (.inl heq)) hrun, rfl, rfl, .inl ⟨rfl, rfl⟩⟩
  · rw [if_neg hroom]
    have hstays : c = 0 ∨ inputBufSize ≤ x.cons.size := by
      by_contra hno
      rw [not_or, Nat.not_le] at hno
      exact hroom ⟨hno.1, room_iff.2 hno.2⟩
    rw [if_pos hstays] at hrun
    refine ⟨_, _, rfl, hedit.ok ?_, rfl, rfl, .inl ⟨rfl, rfl⟩⟩
    exact hrun.trans (congrArg (LineEdit.mk _) hdrop.symm)

/-- A byte is taken out. -/
theorem Ok.take (h : x.Ok) (p : Slot) (hne : x.cons.nread ≠ x.w) : (x.take p).Ok := by
  have hpos : 0 < x.ready := Nat.pos_of_ne_zero fun h0 => hne (ready_eq_zero.2 h0)
  have hready := h.ready
  have hsize := Ring.size_pop (r := x.cons) (by omega)
  have hready' : (x.take p).ready + 1 = x.ready :=
    Ring.size_pop (r := { x.cons with nwrite := x.w }) hpos
  have hcontents := Ring.contents_pop (r := x.cons) (by omega)
  have hsnd : (x.take p).taken.map Prod.snd = x.taken.map Prod.snd ++ [x.cons.front] := by
    rw [Console.take, List.map_append]
    rfl
  have htake : x.cons.contents.take x.ready =
      x.cons.front :: x.cons.pop.contents.take (x.take p).ready := by
    rw [hcontents, ← hready', List.take_succ_cons]
  have hdrop : x.cons.contents.drop x.ready = x.cons.pop.contents.drop (x.take p).ready := by
    rw [hcontents, ← hready', List.drop_succ_cons]
  refine ⟨?_, ?_, ?_, ?_, ?_⟩
  · have := h.size
    show x.cons.pop.size ≤ inputBufSize
    omega
  · show (x.take p).ready ≤ x.cons.pop.size
    omega
  · refine h.edit.trans ?_
    rw [hsnd, htake, hdrop, List.append_assoc]
    rfl
  · show newline ∉ x.cons.pop.contents.drop (x.take p).ready
    rw [← hdrop]
    exact h.line
  · refine h.screen.trans ?_
    rw [hsnd, hcontents, List.append_assoc]
    rfl

end Console

/-! ## What the processes know -/

/-- The bytes a process has taken out. -/
def Console.bytesOf (p : Slot) (x : Console) : List UInt8 :=
  (x.taken.filter fun r => r.1 = p).map Prod.snd

/-- No end of a line and no end of file. -/
def Plain (got : List UInt8) : Prop := newline ∉ got ∧ ctrlD ∉ got

/-- What has been copied out when `consoleread` returns, `bytes` being what it has taken
    out. -/
def ReadEnd.Gives (target : ℕ) (got bytes : List UInt8) : ReadEnd → Prop
  | .full => Plain got ∧ got.length = target ∧ got <:+ bytes
  | .line => ∃ l, got = l ++ [newline] ∧ Plain l ∧ got.length ≤ target ∧ got <:+ bytes
  | .eof => Plain got ∧ got.length < target ∧
      (got = [] → [ctrlD] <:+ bytes) ∧ (got ≠ [] → got <:+ bytes)
  | .fault => Plain got ∧ got.length < target ∧ ∃ c, got ++ [c] <:+ bytes
  | .killed => Plain got ∧ got.length < target ∧ got <:+ bytes

/-- What a thread knows. -/
def ConsPc.Knows (t : ConsThread) (pc : ConsPc) (x : Console) : Prop :=
  match t, pc with
  | .proc p, .read target got => Plain got ∧ got.length ≤ target ∧ got <:+ x.bytesOf p
  | .proc p, .ret target got why => why.Gives target got (x.bytesOf p)
  | _, _ => True

/-- What it knows while it has the lock: an end of file that ends a line is kept, and who was killed
    had nothing to read. -/
def ConsPc.Sees (_ : ConsThread) (pc : ConsPc) (x : Console) : Prop :=
  match pc with
  | .ret _ got .eof => got ≠ [] → x.cons.nread ≠ x.w ∧ x.cons.front = ctrlD
  | .ret _ _ .killed => x.cons.nread = x.w
  | _ => True

section
variable {x y : Console} {p : Slot} {t u : ConsThread} {pc pc' : ConsPc} {target : ℕ}
  {got : List UInt8} {killed copyout : Bool}

theorem ConsPc.Knows.congr (h : pc.Knows t x) (hb : ∀ p, t = .proc p → y.bytesOf p = x.bytesOf p) :
    pc.Knows t y := by
  cases t with
  | uart => trivial
  | proc p =>
    have hb := hb p rfl
    cases pc with
    | read target got =>
      show _ ∧ _ ∧ got <:+ y.bytesOf p
      rw [hb]
      exact h
    | ret target got why =>
      show why.Gives target got (y.bytesOf p)
      rw [hb]
      exact h
    | _ => trivial

theorem Console.bytesOf_take (p : Slot) (x : Console) :
    (x.take p).bytesOf p = x.bytesOf p ++ [x.cons.front] := by
  simp [Console.bytesOf, Console.take]

theorem Console.bytesOf_take_of_ne {q : Slot} (h : q ≠ p) (x : Console) :
    (x.take p).bytesOf q = x.bytesOf q := by
  simp [Console.bytesOf, Console.take, h.symm]

theorem suffix_append_singleton {l bytes : List UInt8} (h : l <:+ bytes) (c : UInt8) :
    l ++ [c] <:+ bytes ++ [c] := by
  obtain ⟨r, rfl⟩ := h
  exact ⟨r, (List.append_assoc r l [c]).symm⟩

theorem Plain.append {c : UInt8} (h : Plain got) (hn : c ≠ newline) (hd : c ≠ ctrlD) :
    Plain (got ++ [c]) := by
  refine ⟨?_, ?_⟩ <;> rw [List.mem_append, List.mem_singleton]
  · rintro (hmem | heq)
    · exact h.1 hmem
    · exact hn heq.symm
  · rintro (hmem | heq)
    · exact h.2 hmem
    · exact hd heq.symm

/-- A step of `consoleread`. -/
theorem consoleread_update (hx : x.Ok) (hk : (ConsPc.read target got).Knows (.proc p) x)
    (hs : consoleread p target got killed copyout x = .update y pc') :
    y.Ok ∧ pc'.Knows (.proc p) y ∧ pc'.Sees (.proc p) y ∧
      ((y = x) ∨ (y = x.take p ∧ x.cons.nread ≠ x.w)) := by
  obtain ⟨hplain, hle, hsuffix⟩ := hk
  rw [consoleread] at hs
  split at hs
  case isFalse hfull =>
    cases hs
    exact ⟨hx, ⟨hplain, by omega, hsuffix⟩, trivial, .inl rfl⟩
  case isTrue hlt =>
    split at hs
    case isTrue hempty =>
      split at hs
      case isTrue =>
        cases hs
        exact ⟨hx, ⟨hplain, hlt, hsuffix⟩, hempty, .inl rfl⟩
      case isFalse => cases hs
    case isFalse hne =>
      have hok := hx.take p hne
      have hbytes := Console.bytesOf_take p x
      simp only at hs
      split at hs
      case isTrue hd =>
        split at hs
        case isTrue hnil =>
          cases hs
          refine ⟨hok, ⟨hplain, hlt, ?_, fun h => absurd hnil h⟩, fun h => absurd hnil h,
            .inr ⟨rfl, hne⟩⟩
          rw [hbytes, hd]
          exact fun _ => List.suffix_append _ _
        case isFalse hnil =>
          cases hs
          exact ⟨hx, ⟨hplain, hlt, fun h => absurd h hnil, fun _ => hsuffix⟩, fun _ => ⟨hne, hd⟩,
            .inl rfl⟩
      case isFalse hd =>
        have hmore := suffix_append_singleton hsuffix x.cons.front
        rw [← hbytes] at hmore
        split at hs
        case isTrue =>
          cases hs
          exact ⟨hok, ⟨hplain, hlt, _, hmore⟩, trivial, .inr ⟨rfl, hne⟩⟩
        case isFalse =>
          have hlen : (got ++ [x.cons.front]).length ≤ target := by
            rw [List.length_append, List.length_singleton]
            omega
          split at hs
          case isTrue hn =>
            cases hs
            refine ⟨hok, ⟨got, ?_, hplain, hlen, hmore⟩, trivial, .inr ⟨rfl, hne⟩⟩
            rw [hn]
          case isFalse hn =>
            cases hs
            exact ⟨hok, ⟨hplain.append hn hd, hlen, hmore⟩, trivial, .inr ⟨rfl, hne⟩⟩

theorem consoleread_wait {c : Unit}
    (hs : consoleread p target got killed copyout x = .wait c pc') :
    pc' = .read target got ∧ x.cons.nread = x.w := by
  rw [consoleread] at hs
  split at hs
  case isFalse => cases hs
  case isTrue =>
    split at hs
    case isTrue hempty =>
      split at hs
      case isTrue => cases hs
      case isFalse =>
        cases hs
        exact ⟨rfl, hempty⟩
    case isFalse =>
      simp only at hs
      repeat' split at hs
      all_goals cases hs

/-- `consoleread` updates or waits between two accesses to the lock. -/
theorem consoleread_cases (p : Slot) (target : ℕ) (got : List UInt8) (killed copyout : Bool)
    (x : Console) :
    (∃ y pc', consoleread p target got killed copyout x = .update y pc') ∨
      ∃ pc', consoleread p target got killed copyout x = .wait () pc' := by
  rw [consoleread]
  simp only
  repeat' split
  all_goals first
    | exact .inl ⟨_, _, rfl⟩
    | exact .inr ⟨_, rfl⟩

theorem consoleintr_cases (c : UInt8) (x : Console) :
    ∃ y pc', consoleintr c x = .update y pc' := by
  rw [consoleintr]
  simp only
  repeat' split
  all_goals exact ⟨_, _, rfl⟩

/-- The ways the code goes on. -/
def ConsPc.Goes (t : ConsThread) (pc : ConsPc) (x : Console) :
    MonitorCmd Console ConsPc Unit → Prop
  | .update y pc' =>
    (∃ c, t = .uart ∧ pc = .intr c ∧ consoleintr c x = .update y pc') ∨
      ∃ p target got killed copyout, t = .proc p ∧ pc = .read target got ∧
        consoleread p target got killed copyout x = .update y pc'
  | .wakeup _ pc' => t = .uart ∧ pc = .wake ∧ pc' = .intrRet
  | .wait _ pc' =>
    ∃ p target got, t = .proc p ∧ pc = .read target got ∧ pc' = .read target got ∧
      x.cons.nread = x.w
  | .release pc' => pc ≠ .wake ∧ pc' = .user

theorem consMonitor_code {a : ConsIn} {cmd : MonitorCmd Console ConsPc Unit}
    (h : consMonitor.code a t pc x = some cmd) : pc.Goes t x cmd := by
  simp only [consMonitor] at h
  split at h
  case h_1 c =>
    cases h
    obtain ⟨y, pc', hc⟩ := consoleintr_cases c x
    rw [hc]
    exact .inl ⟨c, rfl, rfl, hc⟩
  case h_2 =>
    cases h
    exact ⟨rfl, rfl, rfl⟩
  case h_3 =>
    cases h
    exact ⟨fun h => (by cases h), rfl⟩
  case h_4 killed copyout p target got =>
    cases h
    rcases consoleread_cases p target got killed copyout x with ⟨y, pc', hc⟩ | ⟨pc', hc⟩
    · rw [hc]
      exact .inr ⟨p, target, got, killed, copyout, rfl, rfl, hc⟩
    · obtain ⟨rfl, hempty⟩ := consoleread_wait hc
      rw [hc]
      exact ⟨p, target, got, rfl, rfl, rfl, hempty⟩
  case h_5 =>
    cases h
    exact ⟨fun h => (by cases h), rfl⟩
  case h_6 => cases h

end

theorem consMonitor_knows :
    Knows consMonitor (fun _ _ _ _ => True) Console.Ok (fun t pc x => pc.Knows t x)
      fun t pc x => pc.Sees t x where
  outside := by
    intro a t pc x r _ _ hr
    cases hr
  enter := by
    intro a t pc pc' x _ _ hs
    simp only [consMonitor] at hs
    split at hs
    case h_1 =>
      cases hs
      exact ⟨trivial, trivial⟩
    case h_2 =>
      cases hs
      exact ⟨⟨⟨List.not_mem_nil, List.not_mem_nil⟩, Nat.zero_le _, List.nil_suffix⟩, trivial⟩
    case h_3 => cases hs
  update := by
    intro a t pc pc' x y hx hk _ _ hs
    rcases consMonitor_code hs with ⟨c, rfl, rfl, hc⟩ | ⟨p, target, got, killed, copyout, rfl, rfl, hc⟩
    · obtain ⟨y', pc'', hintr, hok, htaken, -, hpc⟩ := hx.consoleintr c
      rw [hintr] at hc
      cases hc
      refine ⟨hok, trivial, ?_, fun u l _ hu => hu.congr fun p _ => ?_⟩
      · rcases hpc with ⟨-, rfl⟩ | rfl <;> trivial
      · rw [Console.bytesOf, htaken]
        rfl
    · obtain ⟨hok, hknows, hsees, hy⟩ := consoleread_update hx hk hc
      refine ⟨hok, hknows, hsees, fun u l hu hl => hl.congr fun q hq => ?_⟩
      rcases hy with rfl | ⟨rfl, -⟩
      · rfl
      · refine Console.bytesOf_take_of_ne ?_ x
        rintro rfl
        exact hu hq
  wakeup := by
    intro a t pc c pc' x _ _ _ _ hs
    obtain ⟨rfl, rfl, rfl⟩ := consMonitor_code hs
    exact ⟨trivial, trivial⟩
  wait := by
    intro a t pc c pc' x _ hk _ _ hs
    obtain ⟨p, target, got, rfl, rfl, rfl, -⟩ := consMonitor_code hs
    exact ⟨hk, fun _ _ _ => trivial⟩
  release := by
    intro a t pc pc' x _ _ _ _ hs
    obtain ⟨-, rfl⟩ := consMonitor_code hs
    cases t <;> trivial

/-! ## The results -/

section
variable {data : Fin inputBufSize → UInt8} {s : Consoles} {p : Slot}

theorem Consoles.inv (h : Reachable consMonitor.step (Consoles.init data) s) :
    Knows.Inv Console.Ok (fun t pc x => pc.Knows t x) (fun t pc x => pc.Sees t x) s :=
  consMonitor_knows.inv (Console.ok_init data) (fun t => by cases t <;> trivial)
    (Monitor.reach_ok h)

/-- **The console is a line editor**: in every interleaving of keys and reads, also after
    the counters have wrapped, what has been taken out and may be taken out is what has been
    entered, the rest of the buffer is the line as the keys make it, and the screen shows
    both. -/
theorem console_lines (h : Reachable consMonitor.step (Consoles.init data) s) :
    LineEdit.run s.shared.typed =
        ⟨s.shared.taken.map Prod.snd ++ s.shared.cons.contents.take s.shared.ready,
          s.shared.cons.contents.drop s.shared.ready⟩ ∧
      screen s.shared.echo =
        (LineEdit.run s.shared.typed).done ++ (LineEdit.run s.shared.typed).line := by
  have hok := (Consoles.inv h).always
  refine ⟨hok.edit, ?_⟩
  rw [hok.screen, hok.edit, List.append_assoc, List.take_append_drop]

/-- `a`, `b`, backspace, `c`, return, `d`; then a process reads. -/
def typeThenRead : List (MonitorAct ConsThread ConsIn) :=
  [97, 98, ctrlH, 99].flatMap (fun c =>
    [.enter .uart (.key c), .code .uart (.env false true), .code .uart (.env false true)]) ++
  [.enter .uart (.key carriageReturn), .code .uart (.env false true),
    .code .uart (.env false true)] ++ List.replicate 66 (.wake .uart) ++
  [.code .uart (.env false true), .enter .uart (.key 100), .code .uart (.env false true),
    .code .uart (.env false true), .enter (.proc 0) (.read 9)] ++
  List.replicate 3 (.code (.proc 0) (.env false true))

theorem console_lines_typeThenRead :
    ∃ s, Reachable consMonitor.step (Consoles.init fun _ => 0) s ∧
      s.shared.taken.map Prod.snd = [97, 99, newline] ∧ s.shared.cons.contents = [100] ∧
      LineEdit.run s.shared.typed =
        ⟨s.shared.taken.map Prod.snd ++ s.shared.cons.contents.take s.shared.ready,
          s.shared.cons.contents.drop s.shared.ready⟩ := by
  have hfacts : (Lib.run consMonitor.step typeThenRead (Consoles.init fun _ => 0)).map
      (fun s => (s.shared.taken.map Prod.snd, s.shared.cons.contents)) =
        some ([97, 99, newline], [100]) := by decide +kernel
  obtain ⟨s, hs, hfacts⟩ := Option.map_eq_some_iff.1 hfacts
  have hreach := Reachable.of_run typeThenRead hs
  exact ⟨s, hreach, congrArg Prod.fst hfacts, congrArg Prod.snd hfacts, (console_lines hreach).1⟩

/-- **What a read returns**: bytes it has taken out, in order and none left out, up to the
    first end of a line, or as many as it was to read, or those before an end of file, which
    it takes out only if there is nothing before it, or, if the process was killed, all there
    was to read. -/
theorem consoleread_returns (h : Reachable consMonitor.step (Consoles.init data) s) {target : ℕ}
    {got : List UInt8} {why : ReadEnd}
    (hp : s.place (.proc p) = .inside (.ret target got why)) :
    why.Gives target got (s.shared.bytesOf p) ∧
      (why = .eof → got ≠ [] → s.shared.cons.nread ≠ s.shared.w ∧ s.shared.cons.front = ctrlD) ∧
      (why = .killed → s.shared.cons.nread = s.shared.w) := by
  have hinv := Consoles.inv h
  have hknows := hinv.own (.proc p)
  rw [hp] at hknows
  have hsees : ConsPc.Sees (.proc p) (.ret target got why) s.shared := by
    refine hinv.current (.proc p) _ ?_
    rw [hp]
    rfl
  refine ⟨hknows, ?_, ?_⟩
  · rintro rfl
    exact hsees
  · rintro rfl
    exact hsees

theorem consoleread_returns_typeThenRead :
    ∃ s, Reachable consMonitor.step (Consoles.init fun _ => 0) s ∧
      s.place (.proc 0) = .inside (.ret 9 [97, 99, newline] .line) ∧
      ReadEnd.line.Gives 9 [97, 99, newline] (s.shared.bytesOf 0) := by
  have hfacts : (Lib.run consMonitor.step typeThenRead (Consoles.init fun _ => 0)).map
      (fun s => s.place (.proc 0)) = some (.inside (.ret 9 [97, 99, newline] .line)) := by
    decide +kernel
  obtain ⟨s, hs, hplace⟩ := Option.map_eq_some_iff.1 hfacts
  have hreach := Reachable.of_run typeThenRead hs
  exact ⟨s, hreach, hplace, (consoleread_returns hreach hplace).1⟩

/-- Who waits, and who has to wake it. -/
def consDiscipline :
    Discipline consMonitor
      (Knows.Inv Console.Ok (fun t pc x => pc.Knows t x) fun t pc x => pc.Sees t x)
      fun _ _ _ _ => True where
  blocked x _ _ _ := x.cons.nread = x.w
  owes _ _ pc _ := pc = .wake
  outside := by
    intro s a t pc r _ _ hr
    cases hr
  update := by
    intro s a t pc y pc' hI hp _ hs
    rcases consMonitor_code hs with ⟨c, rfl, rfl, hc⟩ | ⟨p, target, got, killed, copyout, rfl, rfl, hc⟩
    · obtain ⟨y', pc'', hintr, -, -, hread, hpc⟩ := hI.always.consoleintr c
      rw [hintr] at hc
      cases hc
      refine ⟨?_, fun _ h => by cases h⟩
      intro u l c _ _ hb
      rcases hpc with ⟨hw, -⟩ | hpc
      · exact .inl (by rw [hread, hw]; exact hb)
      · exact .inr hpc
    · have hk := hI.own (.proc p)
      rw [hp] at hk
      obtain ⟨-, -, -, hy⟩ := consoleread_update hI.always hk hc
      refine ⟨?_, fun _ h => by cases h⟩
      intro u l c _ _ hb
      rcases hy with rfl | ⟨-, hne⟩
      · exact .inl hb
      · exact absurd hb hne
  wakeup := by
    intro s a t pc c pc' _ _ _ _ c' hc
    exact absurd rfl hc
  wait := by
    intro s a t pc c pc' _ _ _ hs
    obtain ⟨p, target, got, rfl, rfl, rfl, hempty⟩ := consMonitor_code hs
    exact ⟨hempty, fun _ h => by cases h⟩
  release := by
    intro s a t pc pc' _ _ _ hs _
    exact (consMonitor_code hs).1

/-- **No lost wakeup**: while the lock is free, a process that sleeps in `consoleread` has
    nothing to read: all that has been entered has been taken out. -/
theorem console_no_lost_wakeup (h : Reachable consMonitor.step (Consoles.init data) s)
    (hn : s.lock = none) {t : ConsThread} {c : Unit} {pc : ConsPc}
    (hp : s.place t = .asleep c pc) :
    (LineEdit.run s.shared.typed).done = s.shared.taken.map Prod.snd := by
  have h' := Monitor.reach_ok h
  have hinv : ∀ s, Reach consMonitor.step (Monitor.Ok fun _ _ _ _ => True) (Consoles.init data) s →
      Knows.Inv Console.Ok (fun t pc x => pc.Knows t x) (fun t pc x => pc.Sees t x) s := by
    intro s hs
    exact consMonitor_knows.inv (Console.ok_init data) (fun t => by cases t <;> trivial) hs
  have hblocked : s.shared.cons.nread = s.shared.w :=
    (consDiscipline.waits hinv h').blocked_of_asleep hn hp
  rw [(hinv s h').always.edit, Console.ready_eq_zero.1 hblocked, List.take_zero, List.append_nil]

/-- A key is typed, and a process reads before the end of the line. -/
def readerWaits : List (MonitorAct ConsThread ConsIn) :=
  [.enter .uart (.key 97), .code .uart (.env false true), .code .uart (.env false true),
    .enter (.proc 0) (.read 9), .code (.proc 0) (.env false true), .release (.proc 0),
    .sleep (.proc 0)]

theorem console_no_lost_wakeup_readerWaits :
    ∃ s, Reachable consMonitor.step (Consoles.init fun _ => 0) s ∧
      s.place (.proc 0) = .asleep () (.read 9 []) ∧
      (LineEdit.run s.shared.typed).done = s.shared.taken.map Prod.snd := by
  have hfacts : (Lib.run consMonitor.step readerWaits (Consoles.init fun _ => 0)).map
      (fun s => (s.lock, s.place (.proc 0))) = some (none, .asleep () (.read 9 [])) := by
    decide +kernel
  obtain ⟨s, hs, hfacts⟩ := Option.map_eq_some_iff.1 hfacts
  have hreach := Reachable.of_run readerWaits hs
  have hplace := congrArg Prod.snd hfacts
  exact ⟨s, hreach, hplace, console_no_lost_wakeup hreach (congrArg Prod.fst hfacts) hplace⟩

end

end Xv6
