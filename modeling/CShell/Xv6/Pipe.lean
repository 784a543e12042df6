/-
  xv6 formalization — pipes (`pipe.c`).

  `pipewrite`, `piperead` and `pipeclose` as the code of a monitor: what they do
  between two accesses to `pi->lock`, with any number of processes of the table in
  them at once, and with `sleep_prepare`, `sleep`, the loop of `wakeup` and `kkill`
  in between in every order.  Whether a process has been killed, and what `copyin`
  and `copyout` answer, is left open at each step.

  The state carries, besides the pipe, the bytes that went in and those that came
  out since it was made.

  * `pipe_fifo`: what came out, and then what is in the buffer, is what went in,
    also after the counters have wrapped;
  * `piperead_eof`: a read of something that returns nothing has found the write
    end closed, and every byte has been read;
  * `pipe_no_lost_wakeup`: nobody sleeps who could go on, unless a writer was killed
    after it put bytes in and before it woke the readers.
-/
import CShell.Lib.Ring
import CShell.Lib.Inside
import CShell.Xv6.Mlfq

namespace Xv6

open Lib

/-- `PIPESIZE` -/
abbrev pipesize : ℕ := 512

instance : NeZero pipesize := ⟨by decide⟩

/-- `struct pipe`, but for its lock. -/
structure Pipe extends Ring UInt8 pipesize where
  readopen : Bool
  writeopen : Bool

/-- The channels `&pi->nread` and `&pi->nwrite`. -/
inductive PipeChan where
  | nread | nwrite
  deriving DecidableEq, Repr

/-- The pipe, and what has gone through it. -/
structure PipeState where
  pi : Pipe
  /-- the bytes put in so far -/
  sent : List UInt8
  /-- the bytes copied out so far -/
  received : List UInt8

/-- The calls of `pipewrite`, `piperead` and `pipeclose`. -/
inductive PipeCall where
  | write (n : ℤ) | read (n : ℤ) | close (writable : Bool)
  deriving DecidableEq, Repr

/-- Where a process is in the code of the pipe. -/
inductive PipePc where
  /-- somewhere else -/
  | user
  /-- at the head of the loop of `pipewrite`; `fresh` if it has put bytes in since
      the last wakeup -/
  | write (n i : ℤ) (fresh : Bool)
  /-- before `sleep_prepare` in `pipewrite` -/
  | full (n i : ℤ)
  /-- after `break` in `pipewrite` -/
  | wrote (n i : ℤ)
  | read (n : ℤ)
  /-- at the head of the second loop of `piperead` -/
  | copy (n i : ℤ)
  /-- after that loop -/
  | copied (n i : ℤ)
  | close (writable : Bool)
  /-- before `wakeup` in `pipeclose` -/
  | closed (writable : Bool)
  /-- before the last `release` -/
  | ret (call : PipeCall) (r : ℤ)
  deriving DecidableEq, Repr

/-- What the code depends on: the call made, or what `killed`, `copyin` and `copyout`
    answer. -/
inductive PipeIn where
  | call (call : PipeCall)
  | env (killed : Bool) (copyin : Option UInt8) (copyout : Bool)

/-- What `killed` answers. -/
def PipeIn.killed : PipeIn → Bool
  | .call _ => false
  | .env killed _ _ => killed

/-- After `pipealloc`; the page has whatever `kalloc` left in it. -/
def pipealloc (data : Fin pipesize → UInt8) : PipeState :=
  { pi := { data := data, nread := 0, nwrite := 0, readopen := true, writeopen := true }
    sent := []
    received := [] }

/-- The loop of `pipewrite` with `i` of `n` bytes written, up to the next access to
    the lock or the next round. -/
def pipewrite (n i : ℤ) (killed : Bool) (copyin : Option UInt8) (x : PipeState) :
    MonitorCmd PipeState PipePc PipeChan :=
  if i < n then
    if x.pi.readopen = false ∨ killed = true then .update x (.ret (.write n) (-1))
    else if x.pi.nwrite = x.pi.nread + UInt32.ofNat pipesize then .wakeup .nread (.full n i)
    else match copyin with
      | none => .update x (.wrote n (if i = 0 then -1 else i))
      | some ch =>
        .update { x with pi := { x.pi with toRing := x.pi.push ch }, sent := x.sent ++ [ch] }
          (.write n (i + 1) true)
  else .update x (.wrote n i)

/-- The first loop of `piperead`. -/
def piperead (n : ℤ) (killed : Bool) (x : PipeState) : MonitorCmd PipeState PipePc PipeChan :=
  if x.pi.nread = x.pi.nwrite ∧ x.pi.writeopen = true then
    if killed = true then .update x (.ret (.read n) (-1)) else .wait .nread (.read n)
  else .update x (.copy n 0)

/-- The second loop of `piperead`, with `i` of `n` bytes copied. -/
def pipecopy (n i : ℤ) (copyout : Bool) (x : PipeState) : MonitorCmd PipeState PipePc PipeChan :=
  if i < n then
    if x.pi.nread = x.pi.nwrite then .update x (.copied n i)
    else if copyout = true then
      .update
        { x with
          pi := { x.pi with toRing := x.pi.pop }
          received := x.received ++ [x.pi.front] }
        (.copy n (i + 1))
    else .update x (.copied n (if i = 0 then -1 else i))
  else .update x (.copied n i)

/-- `pipeclose` under the lock. -/
def pipeclose (writable : Bool) (x : PipeState) : PipeState :=
  if writable then { x with pi := { x.pi with writeopen := false } }
  else { x with pi := { x.pi with readopen := false } }

/-- The code with the lock. -/
def pipeCode (killed : Bool) (copyin : Option UInt8) (copyout : Bool) (x : PipeState) :
    PipePc → Option (MonitorCmd PipeState PipePc PipeChan)
  | .user => none
  | .write n i _ => some (pipewrite n i killed copyin x)
  | .full n i => some (.wait .nwrite (.write n i false))
  | .wrote n i => some (.wakeup .nread (.ret (.write n) i))
  | .read n => some (piperead n killed x)
  | .copy n i => some (pipecopy n i copyout x)
  | .copied n i => some (.wakeup .nwrite (.ret (.read n) i))
  | .close writable => some (.update (pipeclose writable x) (.closed writable))
  | .closed writable =>
    some (.wakeup (if writable then .nread else .nwrite) (.ret (.close writable) 0))
  | .ret _ _ => some (.release .user)

/-- Where a call starts. -/
def PipeCall.start : PipeCall → PipePc
  | .write n => .write n 0 false
  | .read n => .read n
  | .close writable => .close writable

/-- The processes of the table, with one pipe. -/
def pipeMonitor : Monitor PipeState Slot PipePc PipeChan PipeIn where
  threads := List.finRange nproc
  mem_threads := List.mem_finRange
  outside _ _ _ _ := none
  enter a _ _ :=
    match a with
    | .call call => some call.start
    | .env _ _ _ => none
  code a _ pc x :=
    match a with
    | .call _ => none
    | .env killed copyin copyout => pipeCode killed copyin copyout x pc

/-- The pipe and the processes. -/
abbrev Pipes := MonitorState PipeState Slot PipePc PipeChan

/-- After `pipealloc`; nobody is in the code. -/
def Pipes.init (data : Fin pipesize → UInt8) : Pipes :=
  Monitor.init (pipealloc data) fun _ => .user

/-! ## What goes in comes out -/

/-- The buffer is never more than full, and holds what went in and did not come out;
    `nread` counts what came out. -/
structure PipeState.Ok (x : PipeState) : Prop where
  size : x.pi.size ≤ pipesize
  fifo : x.sent = x.received ++ x.pi.contents
  count : x.pi.nread = UInt32.ofNat x.received.length

/-- What a process in the code of the pipe knows. -/
def PipePc.Knows (x : PipeState) : PipePc → Prop
  | .write _ _ true => x.pi.readopen = true
  | .full _ _ => x.pi.readopen = true ∧ x.pi.nwrite = x.pi.nread + UInt32.ofNat pipesize
  | .copy n i => 0 ≤ i ∧ (i = 0 → 0 < n → x.pi.nread ≠ x.pi.nwrite ∨ x.pi.writeopen = false)
  | .copied n i | .ret (.read n) i =>
    i = 0 → 0 < n → x.pi.nread = x.pi.nwrite ∧ x.pi.writeopen = false
  | _ => True

theorem ok_pipealloc (data : Fin pipesize → UInt8) : (pipealloc data).Ok :=
  ⟨by simp [pipealloc, Ring.size], by simp [pipealloc, Ring.contents, Ring.size], rfl⟩

variable {x y : PipeState} {n i : ℤ} {killed copyout : Bool} {copyin : Option UInt8}

theorem PipeState.Ok.push (h : x.Ok) (hfull : x.pi.nwrite ≠ x.pi.nread + UInt32.ofNat pipesize)
    (ch : UInt8) :
    PipeState.Ok
      { x with pi := { x.pi with toRing := x.pi.push ch }, sent := x.sent ++ [ch] } := by
  have hsize : x.pi.size < pipesize :=
    Nat.lt_of_le_of_ne h.size fun hs => hfull ((Ring.full_iff (by decide)).2 hs)
  have hwrap : x.pi.size + 1 < 2 ^ 32 := Nat.lt_of_le_of_lt hsize (by decide)
  refine ⟨?_, ?_, h.count⟩
  · show (x.pi.push ch).size ≤ pipesize
    rw [Ring.size_push ch hwrap]
    exact hsize
  · show x.sent ++ [ch] = x.received ++ (x.pi.push ch).contents
    rw [Ring.contents_push (by decide) hsize hwrap, h.fifo, List.append_assoc]

theorem PipeState.Ok.pop (h : x.Ok) (hempty : x.pi.nread ≠ x.pi.nwrite) :
    PipeState.Ok
      { x with
        pi := { x.pi with toRing := x.pi.pop }
        received := x.received ++ [x.pi.front] } := by
  have hsize : 0 < x.pi.size := Nat.pos_of_ne_zero fun hs => hempty (Ring.empty_iff.2 hs)
  have hpop := Ring.size_pop hsize
  refine ⟨?_, ?_, ?_⟩
  · show x.pi.pop.size ≤ pipesize
    have := h.size
    omega
  · show x.sent = (x.received ++ [x.pi.front]) ++ x.pi.pop.contents
    rw [h.fifo, Ring.contents_pop hsize, List.append_assoc, List.singleton_append]
  · show x.pi.nread + 1 = UInt32.ofNat (x.received ++ [x.pi.front]).length
    rw [h.count, List.length_append, List.length_singleton, UInt32.ofNat_add]
    rfl

/-- With the buffer empty all that was sent has been received. -/
theorem PipeState.Ok.received_eq (h : x.Ok) (hempty : x.pi.nread = x.pi.nwrite) :
    x.received = x.sent := by
  have hlength : x.pi.contents.length = 0 := by
    rw [Ring.contents_length]
    exact Ring.empty_iff.1 hempty
  rw [h.fifo, List.eq_nil_of_length_eq_zero hlength, List.append_nil]

theorem PipeState.Ok.close (h : x.Ok) (writable : Bool) : (pipeclose writable x).Ok := by
  cases writable with
  | true => exact ⟨h.size, h.fifo, h.count⟩
  | false => exact ⟨h.size, h.fifo, h.count⟩

/-- The ways a round of `pipewrite` can go. -/
theorem pipewrite_cases (n i : ℤ) (killed : Bool) (copyin : Option UInt8) (x : PipeState) :
    (pipewrite n i killed copyin x = .update x (.ret (.write n) (-1)) ∧ i < n ∧
        (x.pi.readopen = false ∨ killed = true)) ∨
      (pipewrite n i killed copyin x = .wakeup .nread (.full n i) ∧ x.pi.readopen = true ∧
        x.pi.nwrite = x.pi.nread + UInt32.ofNat pipesize) ∨
      (∃ r, pipewrite n i killed copyin x = .update x (.wrote n r)) ∨
      ∃ ch, pipewrite n i killed copyin x =
          .update { x with pi := { x.pi with toRing := x.pi.push ch }, sent := x.sent ++ [ch] }
            (.write n (i + 1) true) ∧
        x.pi.readopen = true ∧ x.pi.nwrite ≠ x.pi.nread + UInt32.ofNat pipesize := by
  rw [pipewrite.eq_def]
  split
  case isFalse => exact .inr (.inr (.inl ⟨_, rfl⟩))
  case isTrue hn =>
    split
    case isTrue hdead => exact .inl ⟨rfl, hn, hdead⟩
    case isFalse hdead =>
      have hopen : x.pi.readopen = true := by
        rw [not_or, Bool.not_eq_false] at hdead
        exact hdead.1
      split
      case isTrue hfull => exact .inr (.inl ⟨rfl, hopen, hfull⟩)
      case isFalse hfull =>
        cases copyin with
        | none => exact .inr (.inr (.inl ⟨_, rfl⟩))
        | some ch => exact .inr (.inr (.inr ⟨ch, rfl, hopen, hfull⟩))

theorem piperead_cases (n : ℤ) (killed : Bool) (x : PipeState) :
    piperead n killed x = .update x (.ret (.read n) (-1)) ∨
      (piperead n killed x = .wait .nread (.read n) ∧ x.pi.nread = x.pi.nwrite ∧
        x.pi.writeopen = true) ∨
      (piperead n killed x = .update x (.copy n 0) ∧
        (x.pi.nread ≠ x.pi.nwrite ∨ x.pi.writeopen = false)) := by
  rw [piperead]
  split
  case isTrue hempty =>
    cases killed with
    | true => exact .inl rfl
    | false => exact .inr (.inl ⟨rfl, hempty⟩)
  case isFalse hempty =>
    rw [not_and_or, Bool.not_eq_true] at hempty
    exact .inr (.inr ⟨rfl, hempty⟩)

theorem pipecopy_cases (n i : ℤ) (copyout : Bool) (x : PipeState) :
    (pipecopy n i copyout x = .update x (.copied n i) ∧
        (i < n → x.pi.nread = x.pi.nwrite)) ∨
      (pipecopy n i copyout x = .update x (.copied n (if i = 0 then -1 else i))) ∨
      (pipecopy n i copyout x =
          .update
            { x with
              pi := { x.pi with toRing := x.pi.pop }
              received := x.received ++ [x.pi.front] }
            (.copy n (i + 1)) ∧ x.pi.nread ≠ x.pi.nwrite) := by
  rw [pipecopy]
  split
  case isFalse hn => exact .inl ⟨rfl, fun h => absurd h hn⟩
  case isTrue =>
    split
    case isTrue hempty => exact .inl ⟨rfl, fun _ => hempty⟩
    case isFalse hempty =>
      cases copyout with
      | true => exact .inr (.inr ⟨rfl, hempty⟩)
      | false => exact .inr (.inl rfl)

/-- What a command has to keep: the buffer, and what is known at the location it
    leads to. -/
def PipeKeeps (x : PipeState) : MonitorCmd PipeState PipePc PipeChan → Prop
  | .update y pc => y.Ok ∧ pc.Knows y
  | .wakeup _ pc => pc.Knows x
  | .wait _ pc => ∀ y : PipeState, y.Ok → pc.Knows y
  | .release _ => True

theorem pipewrite_keeps (h : x.Ok) : PipeKeeps x (pipewrite n i killed copyin x) := by
  rcases pipewrite_cases n i killed copyin x with
    ⟨hc, -⟩ | ⟨hc, hfull⟩ | ⟨r, hc⟩ | ⟨ch, hc, hopen, hfull⟩ <;> rw [hc]
  · exact ⟨h, trivial⟩
  · exact hfull
  · exact ⟨h, trivial⟩
  · exact ⟨h.push hfull ch, hopen⟩

theorem piperead_keeps (h : x.Ok) : PipeKeeps x (piperead n killed x) := by
  rcases piperead_cases n killed x with hc | ⟨hc, -⟩ | ⟨hc, hopen⟩ <;> rw [hc]
  · exact ⟨h, fun hi => absurd hi (by decide)⟩
  · exact fun _ _ => trivial
  · exact ⟨h, Int.le_refl 0, fun _ _ => hopen⟩

theorem pipecopy_keeps (h : x.Ok) (hk : (PipePc.copy n i).Knows x) :
    PipeKeeps x (pipecopy n i copyout x) := by
  obtain ⟨hi, hk⟩ := hk
  rcases pipecopy_cases n i copyout x with ⟨hc, hempty⟩ | hc | ⟨hc, hempty⟩ <;> rw [hc]
  · refine ⟨h, ?_⟩
    intro hi0 hn0
    have hrw := hempty (hi0 ▸ hn0)
    exact ⟨hrw, (hk hi0 hn0).resolve_left fun hne => hne hrw⟩
  · refine ⟨h, ?_⟩
    intro hi0
    split at hi0 <;> omega
  · refine ⟨h.pop hempty, by omega, ?_⟩
    intro hi0
    omega

/-- Every location of the code keeps the buffer, and what is known. -/
theorem pipeCode_keeps (h : x.Ok) {pc : PipePc} (hk : pc.Knows x)
    {cmd : MonitorCmd PipeState PipePc PipeChan}
    (hc : pipeCode killed copyin copyout x pc = some cmd) : PipeKeeps x cmd := by
  cases pc with
  | user => cases hc
  | write n i fresh =>
    cases hc
    exact pipewrite_keeps h
  | full n i =>
    cases hc
    exact fun _ _ => trivial
  | read n =>
    cases hc
    exact piperead_keeps h
  | copy n i =>
    cases hc
    exact pipecopy_keeps h hk
  | copied n i =>
    cases hc
    exact hk
  | close writable =>
    cases hc
    exact ⟨h.close writable, trivial⟩
  | wrote n i | closed writable | ret call r =>
    cases hc
    trivial

theorem pipeMonitor_knows :
    Knows pipeMonitor (fun _ _ _ _ => True) PipeState.Ok (fun _ _ _ => True)
      fun _ pc x => pc.Knows x where
  outside _ _ hr := by cases hr
  enter {a t l l' x} _ _ hl := by
    cases a with
    | env => cases hl
    | call call =>
      cases hl
      cases call with
      | _ => exact ⟨trivial, trivial⟩
  update {a t l l' x y} hx _ hk _ hc := by
    cases a with
    | call => cases hc
    | env =>
      obtain ⟨hy, hk'⟩ := pipeCode_keeps hx hk hc
      exact ⟨hy, trivial, hk', fun _ _ _ => id⟩
  wakeup {a t l c l' x} hx _ hk _ hc := by
    cases a with
    | call => cases hc
    | env => exact ⟨trivial, pipeCode_keeps hx hk hc⟩
  wait {a t l c l' x} hx _ hk _ hc := by
    cases a with
    | call => cases hc
    | env =>
      refine ⟨trivial, ?_⟩
      intro y hy _
      exact pipeCode_keeps hx hk hc y hy
  release _ _ _ _ _ := trivial

variable {data : Fin pipesize → UInt8} {s : Pipes} {t : Slot}

/-- **A pipe is a queue of at most 512 bytes**: in every run, what came out and then
    what is in the buffer is what went in, in this order, and the counters count both
    sides, modulo 2 ^ 32. -/
theorem pipe_fifo (h : Reachable pipeMonitor.step (Pipes.init data) s) :
    s.shared.sent = s.shared.received ++ s.shared.pi.contents ∧
      s.shared.pi.contents.length ≤ pipesize ∧
      s.shared.pi.nread = UInt32.ofNat s.shared.received.length ∧
      s.shared.pi.nwrite = UInt32.ofNat s.shared.sent.length := by
  have hok := pipeMonitor_knows.always (ok_pipealloc data) (fun _ => trivial) (Monitor.reach_ok h)
  refine ⟨hok.fifo, ?_, hok.count, ?_⟩
  · rw [Ring.contents_length]
    exact hok.size
  · rw [Ring.nwrite_eq, hok.count, hok.fifo, List.length_append, Ring.contents_length,
      UInt32.ofNat_add]

/-- One process writes two bytes, and another one reads the first of them. -/
def writeThenRead : List (MonitorAct Slot PipeIn) :=
  [.enter 0 (.call (.write 2)), .code 0 (.env false (some 7) true),
    .code 0 (.env false (some 8) true), .code 0 (.env false none true),
    .code 0 (.env false none true)] ++ List.replicate 65 (.wake 0) ++
  [.code 0 (.env false none true), .enter 1 (.call (.read 1)), .code 1 (.env false none true),
    .code 1 (.env false none true)]

theorem pipe_fifo_two_bytes : ∃ s, Reachable pipeMonitor.step (Pipes.init fun _ => 5) s ∧
    s.shared.sent = [7, 8] ∧ s.shared.received = [7] ∧
    s.shared.sent = s.shared.received ++ s.shared.pi.contents := by
  have hfacts : (Lib.run pipeMonitor.step writeThenRead (Pipes.init fun _ => 5)).map
      (fun s => (s.shared.sent, s.shared.received)) = some ([7, 8], [7]) := by decide +kernel
  obtain ⟨s, hs, hfacts⟩ := Option.map_eq_some_iff.1 hfacts
  have hreach := Reachable.of_run writeThenRead hs
  exact ⟨s, hreach, congrArg Prod.fst hfacts, congrArg Prod.snd hfacts, (pipe_fifo hreach).1⟩

/-- **End of file**: a read of at least one byte that is about to return 0 has found
    the write end closed and the buffer empty, so all that was sent has been received. -/
theorem piperead_eof (h : Reachable pipeMonitor.step (Pipes.init data) s)
    (hp : s.place t = .inside (.ret (.read n) 0)) (hn : 0 < n) :
    s.shared.pi.writeopen = false ∧ s.shared.received = s.shared.sent := by
  have h := Monitor.reach_ok h
  have hok := pipeMonitor_knows.always (ok_pipealloc data) (fun _ => trivial) h
  obtain ⟨hempty, hopen⟩ :=
    pipeMonitor_knows.inside (ok_pipealloc data) (fun _ => trivial) h hp rfl hn
  exact ⟨hopen, hok.received_eq hempty⟩

/-- The write end is closed; then a process reads. -/
def closeThenRead : List (MonitorAct Slot PipeIn) :=
  [.enter 0 (.call (.close true)), .code 0 (.env false none true),
    .code 0 (.env false none true)] ++ List.replicate 65 (.wake 0) ++
  [.code 0 (.env false none true), .enter 1 (.call (.read 1)), .code 1 (.env false none true),
    .code 1 (.env false none true), .code 1 (.env false none true)] ++
  List.replicate 65 (.wake 1)

theorem piperead_eof_closed : ∃ s, Reachable pipeMonitor.step (Pipes.init fun _ => 5) s ∧
    s.place 1 = .inside (.ret (.read 1) 0) ∧ s.shared.pi.writeopen = false ∧
    s.shared.received = s.shared.sent := by
  have hfacts : (Lib.run pipeMonitor.step closeThenRead (Pipes.init fun _ => 5)).map
      (fun s => s.place 1) = some (.inside (.ret (.read 1) 0)) := by decide +kernel
  obtain ⟨s, hs, hplace⟩ := Option.map_eq_some_iff.1 hfacts
  have hreach := Reachable.of_run closeThenRead hs
  exact ⟨s, hreach, hplace, piperead_eof hreach hplace (by decide)⟩

/-! ## Who sleeps -/

/-- A process that sleeps on the channel would find nothing to do. -/
def PipeState.Blocked (x : PipeState) : PipeChan → Prop
  | .nread => x.pi.nread = x.pi.nwrite ∧ x.pi.writeopen = true
  | .nwrite => x.pi.nwrite = x.pi.nread + UInt32.ofNat pipesize ∧ x.pi.readopen = true

/-- The process has to wake the channel. -/
def PipePc.Owes : PipePc → PipeChan → Prop
  | .write _ _ true, .nread | .wrote _ _, .nread | .closed true, .nread => True
  | .copy _ _, .nwrite | .copied _ _, .nwrite | .closed false, .nwrite => True
  | _, _ => False

/-- The process has put bytes in since the last wakeup, and has more to put in. -/
def PipePc.midway : PipePc → Bool
  | .write n i fresh => fresh && i < n
  | _ => false

/-- No writer finds that it has been killed after it has put bytes in and before it has
    woken the readers. -/
def KillsWait (a : PipeIn) (_ : Slot) (pc : PipePc) (_ : PipeState) : Prop :=
  pc.midway = true → a.killed = false

instance (a : PipeIn) (t : Slot) (pc : PipePc) (x : PipeState) :
    Decidable (KillsWait a t pc x) :=
  inferInstanceAs (Decidable (_ → _))

/-- What a command has to do about those who sleep. -/
def PipePays (x : PipeState) (pc : PipePc) : MonitorCmd PipeState PipePc PipeChan → Prop
  | .update y pc' =>
    (∀ c, x.Blocked c → y.Blocked c ∨ pc'.Owes c) ∧ ∀ c, pc.Owes c → pc'.Owes c
  | .wakeup c pc' => ∀ c', c' ≠ c → pc.Owes c' → pc'.Owes c'
  | .wait c _ => x.Blocked c ∧ ∀ c', ¬pc.Owes c'
  | .release _ => ∀ c', ¬pc.Owes c'

theorem pipewrite_pays {fresh : Bool} (hk : (PipePc.write n i fresh).Knows x)
    (hkill : fresh = true → i < n → killed = false) :
    PipePays x (.write n i fresh) (pipewrite n i killed copyin x) := by
  rcases pipewrite_cases n i killed copyin x with
    ⟨hc, hn, hdead⟩ | ⟨hc, -⟩ | ⟨r, hc⟩ | ⟨ch, hc, hopen, hfull⟩ <;> rw [hc]
  · refine ⟨fun _ => .inl, ?_⟩
    intro c hc
    -- who has put bytes in has seen the read end open, and is not killed
    cases fresh with
    | false => cases c <;> exact hc
    | true =>
      have hread : x.pi.readopen = true := hk
      rw [hread, hkill rfl hn] at hdead
      simp at hdead
  · intro c' hc' ho
    cases c' with
    | nread => exact absurd rfl hc'
    | nwrite => cases fresh <;> exact ho
  · refine ⟨fun _ => .inl, ?_⟩
    intro c ho
    cases c with
    | nread => trivial
    | nwrite => cases fresh <;> exact ho
  · refine ⟨?_, ?_⟩
    · intro c hb
      cases c with
      | nread => exact .inr trivial
      | nwrite => exact absurd hb.1 hfull
    · intro c ho
      cases c with
      | nread => trivial
      | nwrite => cases fresh <;> exact ho

theorem piperead_pays : PipePays x (.read n) (piperead n killed x) := by
  have howes : ∀ c, ¬(PipePc.read n).Owes c := fun c => by cases c <;> exact id
  rcases piperead_cases n killed x with hc | ⟨hc, hempty, hopen⟩ | ⟨hc, -⟩ <;> rw [hc]
  · exact ⟨fun _ => .inl, fun c ho => absurd ho (howes c)⟩
  · exact ⟨⟨hempty, hopen⟩, howes⟩
  · exact ⟨fun _ => .inl, fun c ho => absurd ho (howes c)⟩

theorem pipecopy_pays : PipePays x (.copy n i) (pipecopy n i copyout x) := by
  have howes {r : ℤ} : ∀ c, (PipePc.copy n i).Owes c → (PipePc.copied n r).Owes c :=
    fun c => by cases c <;> exact id
  rcases pipecopy_cases n i copyout x with ⟨hc, -⟩ | hc | ⟨hc, hempty⟩ <;> rw [hc]
  · exact ⟨fun _ => .inl, howes⟩
  · exact ⟨fun _ => .inl, howes⟩
  · refine ⟨?_, ?_⟩
    · intro c hb
      cases c with
      | nread => exact absurd hb.1 hempty
      | nwrite => exact .inr trivial
    · intro c ho
      cases c <;> exact ho

theorem pipeclose_pays (writable : Bool) :
    PipePays x (.close writable) (.update (pipeclose writable x) (.closed writable)) := by
  refine ⟨?_, ?_⟩
  · intro c hb
    cases writable with
    | true =>
      cases c with
      | nread => exact .inr trivial
      | nwrite => exact .inl hb
    | false =>
      cases c with
      | nread => exact .inl hb
      | nwrite => exact .inr trivial
  · intro c ho
    cases c <;> exact ho.elim

theorem pipeCode_pays {pc : PipePc} (hk : pc.Knows x)
    (hkill : KillsWait (.env killed copyin copyout) t pc x)
    {cmd : MonitorCmd PipeState PipePc PipeChan}
    (hc : pipeCode killed copyin copyout x pc = some cmd) : PipePays x pc cmd := by
  cases pc with
  | user => cases hc
  | write n i fresh =>
    cases hc
    refine pipewrite_pays hk ?_
    rintro rfl hn
    exact hkill (decide_eq_true hn)
  | full n i =>
    cases hc
    exact ⟨⟨hk.2, hk.1⟩, fun c => by cases c <;> exact id⟩
  | read n =>
    cases hc
    exact piperead_pays
  | copy n i =>
    cases hc
    exact pipecopy_pays
  | close writable =>
    cases hc
    exact pipeclose_pays writable
  | wrote n i | copied n i =>
    cases hc
    intro c' hc' ho
    cases c' with
    | nread => first | exact absurd rfl hc' | exact ho
    | nwrite => first | exact absurd rfl hc' | exact ho
  | closed writable =>
    cases hc
    intro c' hc' ho
    cases writable <;> cases c' <;> first | exact absurd rfl hc' | exact ho
  | ret call r =>
    cases hc
    exact fun c => by cases c <;> exact id

/-- Everyone in the code of the pipe knows what its location says. -/
def Pipes.Known (s : Pipes) : Prop :=
  ∀ t pc, s.place t = .inside pc → pc.Knows s.shared

/-- Who unblocks others wakes them before it releases the lock. -/
def pipeDiscipline : Discipline pipeMonitor Pipes.Known KillsWait where
  blocked x _ _ c := x.Blocked c
  owes _ _ pc c := pc.Owes c
  outside _ _ hr := by cases hr
  update {s a t pc y pc'} hs hp hok hc := by
    cases a with
    | call => cases hc
    | env =>
      obtain ⟨hblocked, howes⟩ := pipeCode_pays (hs t pc hp) hok hc
      exact ⟨fun _ _ c _ _ => hblocked c, howes⟩
  wakeup {s a t pc c pc'} hs hp hok hc := by
    cases a with
    | call => cases hc
    | env => exact pipeCode_pays (hs t pc hp) hok hc
  wait {s a t pc c pc'} hs hp hok hc := by
    cases a with
    | call => cases hc
    | env => exact pipeCode_pays (hs t pc hp) hok hc
  release {s a t pc pc'} hs hp hok hc := by
    cases a with
    | call => cases hc
    | env => exact pipeCode_pays (hs t pc hp) hok hc

theorem Pipes.known_of_reach
    (h : Reach pipeMonitor.step (Monitor.Ok KillsWait) (Pipes.init data) s) : s.Known := by
  intro t pc hp
  exact pipeMonitor_knows.inside (ok_pipealloc data) (fun _ => trivial) (Monitor.reach_ok h) hp

/-- **No wakeup is lost**, as long as no writer finds itself killed with bytes put in
    and the readers not woken: while the lock of the pipe is free, a process that sleeps
    on `nread` has nothing to read and a writer to wait for, and one that sleeps on
    `nwrite` has no space and a reader to wait for. -/
theorem pipe_no_lost_wakeup
    (h : Reach pipeMonitor.step (Monitor.Ok KillsWait) (Pipes.init data) s)
    (hlock : s.lock = none) {c : PipeChan} {pc : PipePc} (hp : s.place t = .asleep c pc) :
    match c with
    | .nread => s.shared.received = s.shared.sent ∧ s.shared.pi.writeopen = true
    | .nwrite => s.shared.pi.contents.length = pipesize ∧ s.shared.pi.readopen = true := by
  have hinv := pipeDiscipline.waits (fun _ => Pipes.known_of_reach) h
  have hblocked : s.shared.Blocked c := hinv.blocked_of_asleep hlock hp
  have hok := pipeMonitor_knows.always (ok_pipealloc data) (fun _ => trivial) (Monitor.reach_ok h)
  cases c with
  | nread => exact ⟨hok.received_eq hblocked.1, hblocked.2⟩
  | nwrite =>
    refine ⟨?_, hblocked.2⟩
    rw [Ring.contents_length]
    exact (Ring.full_iff (by decide)).1 hblocked.1

/-- A process reads from the empty pipe and goes to sleep. -/
def readerSleeps : List (MonitorAct Slot PipeIn) :=
  [.enter 1 (.call (.read 1)), .code 1 (.env false none true), .release 1, .sleep 1]

/-- One process writes two bytes, and another one reads both and then sleeps for more. -/
def readerEmpties : List (MonitorAct Slot PipeIn) :=
  [.enter 0 (.call (.write 2)), .code 0 (.env false (some 7) true),
    .code 0 (.env false (some 8) true), .code 0 (.env false none true),
    .code 0 (.env false none true)] ++ List.replicate 65 (.wake 0) ++
  [.code 0 (.env false none true), .enter 1 (.call (.read 2))] ++
  List.replicate 5 (.code 1 (.env false none true)) ++ List.replicate 65 (.wake 1) ++
  [.code 1 (.env false none true)] ++ readerSleeps

theorem pipe_no_lost_wakeup_reader :
    ∃ s, Reach pipeMonitor.step (Monitor.Ok KillsWait) (Pipes.init fun _ => 5) s ∧
      s.place 1 = .asleep .nread (.read 1) ∧ s.shared.sent = [7, 8] ∧
      s.shared.received = s.shared.sent ∧ s.shared.pi.writeopen = true := by
  have hfacts : (Lib.run (guarded pipeMonitor.step (Monitor.Ok KillsWait)) readerEmpties
      (Pipes.init fun _ => 5)).map (fun s => (s.lock, s.place 1, s.shared.sent)) =
        some (none, .asleep .nread (.read 1), [7, 8]) := by decide +kernel
  obtain ⟨s, hs, hfacts⟩ := Option.map_eq_some_iff.1 hfacts
  simp only [Prod.mk.injEq] at hfacts
  obtain ⟨hlock, hplace, hsent⟩ := hfacts
  have hreach := Reach.of_run readerEmpties hs
  exact ⟨s, hreach, hplace, hsent, pipe_no_lost_wakeup hreach hlock hplace⟩

/-- The condition is needed: a writer that is killed after its first byte returns
    without a wakeup, and the reader sleeps on. -/
example : (Lib.run pipeMonitor.step
    (readerSleeps ++ [.enter 0 (.call (.write 2)), .code 0 (.env false (some 7) true),
      .code 0 (.env true (some 8) true), .code 0 (.env false none true)])
    (Pipes.init fun _ => 5)).map
      (fun s => (s.lock, s.place 1, s.shared.sent, s.shared.received)) =
        some (none, .asleep .nread (.read 1), [7], []) := by decide +kernel

end Xv6
