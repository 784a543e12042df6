/-
  xv6 formalization — the multilevel feedback queues (`proc.c`, `trap.c`).

  The scheduler of the MLFQ build as a transition system for any number of
  CPUs.  A step is one section between `acquire` and `release` of a process
  or queue lock, made by one CPU; `yield`, `sleep` and `kexit` keep the
  process lock until the scheduler of the CPU releases it, so they are one
  step up to there.

  `mlfq_boost` is called in the timer interrupt of CPU 0, which does nothing
  else until it returns.  The process slots are `proc[NPROC]`; a channel is a
  number, `0` for none.  A process may be preempted inside `kfork`, so it
  carries how far it has come there.  A running process may yield at any
  time: whether the source calls `yield` after a tick depends on the slice
  and on the heads of the queues, and neither is needed for what follows.

  `performs_of_perform`, `boosts_of_boostStep`: the ways a step can go, each
  with its condition and the state after it.
-/
import Mathlib.Algebra.GroupWithZero.Nat
import CShell.Lib.LinkedQueue
import CShell.Lib.Steps

namespace Xv6

open Lib

/-- `NPROC` -/
abbrev nproc : ℕ := 64

instance : NeZero nproc := ⟨by decide⟩

/-- A pointer into `proc[NPROC]`. -/
abbrev Slot := Fin nproc

/-- `enum procstate`. -/
inductive ProcState where
  | unused | used | sleeping | runnable | running | zombie
  deriving DecidableEq, Repr

/-- How far a process is in `kfork`: the child is allocated, then it has its
    parent, then it is made runnable. -/
inductive Fork where
  | idle
  | allocated (np : Slot)
  | parented (np : Slot)
  deriving DecidableEq, Repr

/-- The fields of `struct proc` the scheduler uses, but for `next`. -/
structure Proc where
  state : ProcState
  chan : ℕ
  killed : Bool
  pid : ℕ
  parent : Option Slot
  priority : ℕ
  ticksUsed : ℕ
  fork : Fork
  deriving DecidableEq, Repr

/-- What a CPU does. -/
inductive Cpu where
  /-- `deque_highest_priority_p` is at queue `q` -/
  | looking (q : ℕ)
  /-- `scheduler` has taken `p` from its queue, and not its lock yet -/
  | holding (p : Slot)
  | running (p : Slot)
  deriving DecidableEq, Repr

/-- Where `mlfq_boost` is. -/
inductive Boost where
  | off
  /-- `do_boost` is set, `clockintr` still wakes up the sleepers on `ticks` -/
  | due
  /-- at `deque(q)` -/
  | drain (q : ℕ)
  /-- `p` is taken from queue `q` -/
  | took (q : ℕ) (p : Slot)
  /-- the lock of `p` is released again, `p` not enqueued yet -/
  | reset (q : ℕ) (p : Slot)
  /-- at slot `i` of the loop over the process table -/
  | sweep (i : Slot)
  deriving DecidableEq, Repr

/-- The kernel with `ncpu` CPUs. -/
structure State (ncpu : ℕ) where
  proc : Slot → Proc
  next : Slot → Option Slot
  queues : ℕ → LinkedQueue Slot
  cpu : Fin ncpu → Cpu
  boost : Boost
  ticks : ℕ
  nextpid : ℕ
  initproc : Option Slot

/-- A free slot. -/
def Proc.unused : Proc := ⟨.unused, 0, false, 0, none, 0, 0, .idle⟩

variable {ncpu : ℕ}

/-- After `procinit`. -/
def State.init : State ncpu :=
  { proc := fun _ => .unused
    next := fun _ => none
    queues := fun _ => .empty
    cpu := fun _ => .looking 0
    boost := .off
    ticks := 0
    nextpid := 1
    initproc := none }

namespace State

/-! ## The queues -/

/-- `enqueue`. -/
def enqueue (q : ℕ) (p : Slot) (s : State ncpu) : State ncpu :=
  let r := (s.queues q).enqueue p s.next
  { s with queues := Function.update s.queues q r.1, next := r.2 }

/-- `deque`; `none` if the queue is empty. -/
def deque (q : ℕ) (s : State ncpu) : Option (Slot × State ncpu) :=
  match (s.queues q).deque s.next with
  | none => none
  | some (p, queue, next) =>
    some (p, { s with queues := Function.update s.queues q queue, next := next })

/-! ## Processes -/

/-- Assign to a slot of the table. -/
def setProc (p : Slot) (x : Proc) (s : State ncpu) : State ncpu :=
  { s with proc := Function.update s.proc p x }

/-- A CPU goes on. -/
def setCpu (c : Fin ncpu) (x : Cpu) (s : State ncpu) : State ncpu :=
  { s with cpu := Function.update s.cpu c x }

/-- `p` becomes runnable and is put into a queue. -/
def makeRunnable (q : ℕ) (p : Slot) (s : State ncpu) : State ncpu :=
  (s.setProc p { s.proc p with state := .runnable }).enqueue q p

/-- `allocproc` for the slot it has found. -/
def allocproc (p : Slot) (s : State ncpu) : State ncpu :=
  { s.setProc p { s.proc p with
      state := .used, pid := s.nextpid, priority := 0, ticksUsed := 0 } with
    next := Function.update s.next p none, nextpid := s.nextpid + 1 }

/-- `freeproc`. -/
def freeproc (p : Slot) (s : State ncpu) : State ncpu :=
  { s.setProc p { s.proc p with
      state := .unused, chan := 0, killed := false, pid := 0, priority := 0, ticksUsed := 0 } with
    next := Function.update s.next p none }

/-- `pp->parent = initproc` for the children of `p`. -/
def reparent (p : Slot) (s : State ncpu) : State ncpu :=
  { s with proc := fun i =>
      if (s.proc i).parent = some p then { s.proc i with parent := s.initproc } else s.proc i }

end State

/-- `time_slice` -/
def timeSlice : List ℕ := [1, 4, 8, 16]

/-- `mlfq_tick` and, at the end of the slice, `mlfq_timeslice_expired`. -/
def Proc.tick (x : Proc) : Proc :=
  if timeSlice.getD x.priority 0 ≤ x.ticksUsed + 1 then
    { x with priority := if x.priority < 3 then x.priority + 1 else x.priority, ticksUsed := 0 }
  else { x with ticksUsed := x.ticksUsed + 1 }

/-- `p->priority = 0; p->ticks_used = 0`. -/
def Proc.raise (x : Proc) : Proc := { x with priority := 0, ticksUsed := 0 }

/-! ## Steps -/

/-- What a CPU does in one step. -/
inductive Op where
  | userinit
  /-- `deque` in the scheduler -/
  | deque
  /-- the scheduler locks the process it has taken -/
  | dispatch
  | yield
  | sleepPrepare (chan : ℕ)
  | sleep
  | kexit
  /-- `kfork`: `allocproc` finds the slot, and then fails or succeeds -/
  | alloc (np : Slot) (ok : Bool)
  | setParent
  | forkDone
  /-- `kwait` finds a zombie child -/
  | reap (pp : Slot)
  /-- one iteration of `wakeup` -/
  | wakeup (chan : ℕ) (i : Slot)
  /-- one iteration of `kkill` -/
  | kkill (pid : ℕ) (i : Slot)
  /-- a timer interrupt is charged to the running process -/
  | tick
  /-- `clockintr` counts a tick -/
  | clock
  deriving DecidableEq, Repr

/-- A step of a CPU, or of the boost. -/
inductive Act (ncpu : ℕ) where
  | on (c : Fin ncpu) (op : Op)
  /-- `mlfq_boost` goes on, on CPU 0 -/
  | boost
  deriving DecidableEq, Repr

/-- What CPU 0 may do besides the boost. -/
def Boost.allows : Boost → Op → Bool
  | .off, _ => true
  | .due, .wakeup _ _ => true
  | _, _ => false

namespace State

/-- A step of the process that runs on the CPU. -/
def byRunning (s : State ncpu) (c : Fin ncpu) (f : Slot → Option (State ncpu)) :
    Option (State ncpu) :=
  match s.cpu c with
  | .running p => f p
  | _ => none

/-- What a CPU does, whether the boost lets it or not. -/
def perform (s : State ncpu) (c : Fin ncpu) : Op → Option (State ncpu)
  | .userinit =>
    if s.initproc = none ∧ (s.proc 0).state = .unused then
      some { (s.allocproc 0).makeRunnable 0 0 with initproc := some 0 }
    else none
  | .deque =>
    match s.cpu c with
    | .looking q =>
      match s.deque q with
      | some (p, s') => some (s'.setCpu c (.holding p))
      | none => some (s.setCpu c (.looking (if q < 3 then q + 1 else 0)))
    | _ => none
  | .dispatch =>
    match s.cpu c with
    | .holding p =>
      if (s.proc p).state = .runnable then
        some ((s.setProc p { s.proc p with state := .running }).setCpu c (.running p))
      else some (s.setCpu c (.looking 0))
    | _ => none
  | .yield => s.byRunning c fun p =>
      some ((s.makeRunnable (s.proc p).priority p).setCpu c (.looking 0))
  | .sleepPrepare chan => s.byRunning c fun p =>
      if chan = 0 then none else some (s.setProc p { s.proc p with chan := chan })
  | .sleep => s.byRunning c fun p =>
      if (s.proc p).chan = 0 then some s
      else some ((s.setProc p { s.proc p with state := .sleeping }).setCpu c (.looking 0))
  | .kexit => s.byRunning c fun p =>
      if s.initproc ≠ some p ∧ (s.proc p).fork = .idle then
        let s := s.reparent p
        some ((s.setProc p { s.proc p with state := .zombie }).setCpu c (.looking 0))
      else none
  | .alloc np ok => s.byRunning c fun p =>
      if (s.proc np).state = .unused ∧ (s.proc p).fork = .idle then
        let s := s.allocproc np
        if ok then some (s.setProc p { s.proc p with fork := .allocated np })
        else some (s.freeproc np)
      else none
  | .setParent => s.byRunning c fun p =>
      match (s.proc p).fork with
      | .allocated np =>
        let s := s.setProc np { s.proc np with parent := some p }
        some (s.setProc p { s.proc p with fork := .parented np })
      | _ => none
  | .forkDone => s.byRunning c fun p =>
      match (s.proc p).fork with
      | .parented np =>
        some ((s.setProc p { s.proc p with fork := .idle }).makeRunnable 0 np)
      | _ => none
  | .reap pp => s.byRunning c fun p =>
      if (s.proc pp).parent = some p ∧ (s.proc pp).state = .zombie then
        some ((s.setProc pp { s.proc pp with parent := none }).freeproc pp)
      else none
  | .wakeup chan i =>
    if (s.proc i).chan = chan then
      let s := s.setProc i { s.proc i with chan := 0 }
      if (s.proc i).state = .sleeping then some (s.makeRunnable (s.proc i).priority i) else some s
    else some s
  | .kkill pid i =>
    if (s.proc i).pid = pid then
      let s := s.setProc i { s.proc i with killed := true }
      if (s.proc i).state = .sleeping then some (s.makeRunnable (s.proc i).priority i) else some s
    else some s
  | .tick => s.byRunning c fun p => some (s.setProc p (s.proc p).tick)
  | .clock =>
    if c.val = 0 then
      let ticks := (s.ticks + 1) % 2 ^ 32
      some { s with ticks := ticks, boost := if ticks % 48 = 0 then .due else .off }
    else none

/-- One step of `mlfq_boost`. -/
def boostStep (s : State ncpu) : Option (State ncpu) :=
  match s.boost with
  | .off => none
  | .due => some { s with boost := .drain 1 }
  | .drain q =>
    match s.deque q with
    | some (p, s') => some { s' with boost := .took q p }
    | none => some { s with boost := if q < 3 then .drain (q + 1) else .sweep 0 }
  | .took q p =>
    if (s.proc p).state = .runnable then
      some { s.setProc p (s.proc p).raise with boost := .reset q p }
    else some { s with boost := .drain q }
  | .reset q p => some { s.enqueue 0 p with boost := .drain q }
  | .sweep i =>
    some { s.setProc i (s.proc i).raise with
      boost := if h : i.val + 1 < nproc then .sweep ⟨i.val + 1, h⟩ else .off }

/-- A CPU takes a step. -/
def step (s : State ncpu) : Act ncpu → Option (State ncpu)
  | .on c op => if c.val = 0 ∧ ¬ s.boost.allows op then none else s.perform c op
  | .boost => s.boostStep

end State

/-! ## What a step can do -/

/-- `wakeup` and `kkill` mark the process. -/
inductive Marks (s : State ncpu) : Op → Slot → Proc → Prop where
  | wakeup (i : Slot) : Marks s (.wakeup (s.proc i).chan i) i { s.proc i with chan := 0 }
  | kkill (i : Slot) : Marks s (.kkill (s.proc i).pid i) i { s.proc i with killed := true }

/-- The steps of a CPU, one constructor for each way they can go. -/
inductive Performs (s : State ncpu) (c : Fin ncpu) : Op → State ncpu → Prop where
  | userinit : s.initproc = none → (s.proc 0).state = .unused →
      Performs s c .userinit { (s.allocproc 0).makeRunnable 0 0 with initproc := some 0 }
  | took {q : ℕ} {p : Slot} {s₁ : State ncpu} : s.cpu c = .looking q → s.deque q = some (p, s₁) →
      Performs s c .deque (s₁.setCpu c (.holding p))
  | empty {q : ℕ} : s.cpu c = .looking q → s.deque q = none →
      Performs s c .deque (s.setCpu c (.looking (if q < 3 then q + 1 else 0)))
  | dispatch {p : Slot} : s.cpu c = .holding p → (s.proc p).state = .runnable →
      Performs s c .dispatch
        ((s.setProc p { s.proc p with state := .running }).setCpu c (.running p))
  | dropped {p : Slot} : s.cpu c = .holding p → (s.proc p).state ≠ .runnable →
      Performs s c .dispatch (s.setCpu c (.looking 0))
  | yield {p : Slot} : s.cpu c = .running p →
      Performs s c .yield ((s.makeRunnable (s.proc p).priority p).setCpu c (.looking 0))
  | sleepPrepare {p : Slot} {chan : ℕ} : s.cpu c = .running p → chan ≠ 0 →
      Performs s c (.sleepPrepare chan) (s.setProc p { s.proc p with chan := chan })
  | missed {p : Slot} : s.cpu c = .running p → (s.proc p).chan = 0 → Performs s c .sleep s
  | sleep {p : Slot} : s.cpu c = .running p → (s.proc p).chan ≠ 0 →
      Performs s c .sleep ((s.setProc p { s.proc p with state := .sleeping }).setCpu c (.looking 0))
  | kexit {p : Slot} : s.cpu c = .running p → s.initproc ≠ some p → (s.proc p).fork = .idle →
      Performs s c .kexit (((s.reparent p).setProc p
        { (s.reparent p).proc p with state := .zombie }).setCpu c (.looking 0))
  | alloc {p np : Slot} : s.cpu c = .running p → (s.proc np).state = .unused →
      (s.proc p).fork = .idle → Performs s c (.alloc np true)
        ((s.allocproc np).setProc p { (s.allocproc np).proc p with fork := .allocated np })
  | allocFailed {p np : Slot} : s.cpu c = .running p → (s.proc np).state = .unused →
      (s.proc p).fork = .idle → Performs s c (.alloc np false) ((s.allocproc np).freeproc np)
  | setParent {p np : Slot} : s.cpu c = .running p → (s.proc p).fork = .allocated np →
      Performs s c .setParent ((s.setProc np { s.proc np with parent := some p }).setProc p
        { (s.setProc np { s.proc np with parent := some p }).proc p with fork := .parented np })
  | forkDone {p np : Slot} : s.cpu c = .running p → (s.proc p).fork = .parented np →
      Performs s c .forkDone ((s.setProc p { s.proc p with fork := .idle }).makeRunnable 0 np)
  | reap {p pp : Slot} : s.cpu c = .running p → (s.proc pp).parent = some p →
      (s.proc pp).state = .zombie →
      Performs s c (.reap pp) ((s.setProc pp { s.proc pp with parent := none }).freeproc pp)
  | notChan {chan : ℕ} {i : Slot} : (s.proc i).chan ≠ chan → Performs s c (.wakeup chan i) s
  | notPid {pid : ℕ} {i : Slot} : (s.proc i).pid ≠ pid → Performs s c (.kkill pid i) s
  | awake {op : Op} {i : Slot} {x : Proc} : Marks s op i x → (s.proc i).state ≠ .sleeping →
      Performs s c op (s.setProc i x)
  | woken {op : Op} {i : Slot} {x : Proc} : Marks s op i x → (s.proc i).state = .sleeping →
      Performs s c op ((s.setProc i x).makeRunnable x.priority i)
  | tick {p : Slot} : s.cpu c = .running p →
      Performs s c .tick (s.setProc p (s.proc p).tick)
  | clock : c.val = 0 → Performs s c .clock { s with
      ticks := (s.ticks + 1) % 2 ^ 32,
      boost := if (s.ticks + 1) % 2 ^ 32 % 48 = 0 then .due else .off }

/-- The steps of `mlfq_boost`. -/
inductive Boosts (s : State ncpu) : State ncpu → Prop where
  | start : s.boost = .due → Boosts s { s with boost := .drain 1 }
  | took {q : ℕ} {p : Slot} {s₁ : State ncpu} : s.boost = .drain q → s.deque q = some (p, s₁) →
      Boosts s { s₁ with boost := .took q p }
  | emptied {q : ℕ} : s.boost = .drain q → s.deque q = none →
      Boosts s { s with boost := if q < 3 then .drain (q + 1) else .sweep 0 }
  | raised {q : ℕ} {p : Slot} : s.boost = .took q p → (s.proc p).state = .runnable →
      Boosts s { s.setProc p (s.proc p).raise with boost := .reset q p }
  | skipped {q : ℕ} {p : Slot} : s.boost = .took q p → (s.proc p).state ≠ .runnable →
      Boosts s { s with boost := .drain q }
  | put {q : ℕ} {p : Slot} : s.boost = .reset q p →
      Boosts s { s.enqueue 0 p with boost := .drain q }
  | swept {i : Slot} : s.boost = .sweep i → Boosts s { s.setProc i (s.proc i).raise with
      boost := if h : i.val + 1 < nproc then .sweep ⟨i.val + 1, h⟩ else .off }

section
variable {s s' : State ncpu} {c : Fin ncpu} {op : Op}

theorem byRunning_eq_some {f : Slot → Option (State ncpu)} (h : s.byRunning c f = some s') :
    ∃ p, s.cpu c = .running p ∧ f p = some s' := by
  unfold State.byRunning at h
  split at h
  · exact ⟨_, ‹_›, h⟩
  · cases h

theorem Marks.state {i : Slot} {x : Proc} (hm : Marks s op i x) : x.state = (s.proc i).state := by
  cases hm <;> rfl

/-- `wakeup` and `kkill`: the process is marked, and put into a queue if it sleeps. -/
theorem Marks.performs {i : Slot} {x : Proc} (hm : Marks s op i x)
    (hs : (if ((s.setProc i x).proc i).state = .sleeping then
      some ((s.setProc i x).makeRunnable ((s.setProc i x).proc i).priority i)
      else some (s.setProc i x)) = some s') : Performs s c op s' := by
  have hx : (s.setProc i x).proc i = x := Function.update_self ..
  rw [hx] at hs
  split at hs
  · cases hs
    exact .woken hm (hm.state.symm.trans ‹_›)
  · cases hs
    exact .awake hm fun h => ‹¬_› (hm.state.trans h)

/-- **Every step of a CPU is one of these.** -/
theorem performs_of_perform (hs : s.perform c op = some s') : Performs s c op s' := by
  cases op with
  | userinit =>
    obtain ⟨⟨hi, hu⟩, hs⟩ := Option.ite_none_right_eq_some.1 hs
    cases hs
    exact .userinit hi hu
  | deque =>
    simp only [State.perform] at hs
    split at hs
    · split at hs
      · cases hs
        exact .took ‹_› ‹_›
      · cases hs
        exact .empty ‹_› ‹_›
    · cases hs
  | dispatch =>
    simp only [State.perform] at hs
    split at hs
    · split at hs
      · cases hs
        exact .dispatch ‹_› ‹_›
      · cases hs
        exact .dropped ‹_› ‹_›
    · cases hs
  | yield =>
    obtain ⟨p, hc, hs⟩ := byRunning_eq_some hs
    cases hs
    exact .yield hc
  | sleepPrepare chan =>
    obtain ⟨p, hc, hs⟩ := byRunning_eq_some hs
    obtain ⟨h0, hs⟩ := Option.ite_none_left_eq_some.1 hs
    cases hs
    exact .sleepPrepare hc h0
  | sleep =>
    obtain ⟨p, hc, hs⟩ := byRunning_eq_some hs
    split at hs
    · cases hs
      exact .missed hc ‹_›
    · cases hs
      exact .sleep hc ‹_›
  | kexit =>
    obtain ⟨p, hc, hs⟩ := byRunning_eq_some hs
    obtain ⟨⟨hi, hf⟩, hs⟩ := Option.ite_none_right_eq_some.1 hs
    cases hs
    exact .kexit hc hi hf
  | alloc np ok =>
    obtain ⟨p, hc, hs⟩ := byRunning_eq_some hs
    obtain ⟨⟨hu, hf⟩, hs⟩ := Option.ite_none_right_eq_some.1 hs
    cases ok with
    | true => cases hs; exact .alloc hc hu hf
    | false => cases hs; exact .allocFailed hc hu hf
  | setParent =>
    obtain ⟨p, hc, hs⟩ := byRunning_eq_some hs
    split at hs
    · cases hs
      exact .setParent hc ‹_›
    · cases hs
  | forkDone =>
    obtain ⟨p, hc, hs⟩ := byRunning_eq_some hs
    split at hs
    · cases hs
      exact .forkDone hc ‹_›
    · cases hs
  | reap pp =>
    obtain ⟨p, hc, hs⟩ := byRunning_eq_some hs
    obtain ⟨⟨hp, hz⟩, hs⟩ := Option.ite_none_right_eq_some.1 hs
    cases hs
    exact .reap hc hp hz
  | wakeup chan i =>
    simp only [State.perform] at hs
    split at hs
    · rename_i hchan
      subst hchan
      exact (Marks.wakeup i).performs hs
    · cases hs
      exact .notChan ‹_›
  | kkill pid i =>
    simp only [State.perform] at hs
    split at hs
    · rename_i hpid
      subst hpid
      exact (Marks.kkill i).performs hs
    · cases hs
      exact .notPid ‹_›
  | tick =>
    obtain ⟨p, hc, hs⟩ := byRunning_eq_some hs
    cases hs
    exact .tick hc
  | clock =>
    obtain ⟨hc, hs⟩ := Option.ite_none_right_eq_some.1 hs
    cases hs
    exact .clock hc

/-- **Every step of the boost is one of these.** -/
theorem boosts_of_boostStep (hs : s.boostStep = some s') : Boosts s s' := by
  unfold State.boostStep at hs
  split at hs
  · cases hs
  · cases hs
    exact .start ‹_›
  · split at hs
    · cases hs
      exact .took ‹_› ‹_›
    · cases hs
      exact .emptied ‹_› ‹_›
  · split at hs
    · cases hs
      exact .raised ‹_› ‹_›
    · cases hs
      exact .skipped ‹_› ‹_›
  · cases hs
    exact .put ‹_›
  · cases hs
    exact .swept ‹_›

end

end Xv6
