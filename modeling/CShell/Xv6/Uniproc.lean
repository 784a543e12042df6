/-
  xv6 formalization — one CPU and the counters of ticks (`proc.c`, `trap.c`).

  The kernel on one CPU, with the counters each process has: its arrival, its
  first run, the ticks it has run and those it has waited.  Which runnable
  process is dispatched next, and when a process yields, is left open, so that
  this is the kernel of all three builds (round robin, FIFO and MLFQ).

  A timer interrupt counts the tick, wakes up the sleepers on `ticks`, sweeps
  over the process table (`update_waiting_ticks`) and charges the process it
  has interrupted; nothing else happens until it is over (`Intr`).  `kexit`
  prints a line with the counters.  The queues and the priorities of the MLFQ
  build play no part here.

  * `moves_of_step`: the ways a step can go;
  * `wf_of_reach`: the process that runs is `RUNNING`, and the child of a
    pending `kfork` is known to nobody else.
-/
import Mathlib.Tactic.Simps.Basic
import CShell.Lib.Ints
import CShell.Xv6.Queues

namespace Xv6

open Lib

/-- The counters of `struct proc`, of type `int`. -/
structure Times where
  rtime : ℤ
  arrivalTick : ℤ
  firstRunTick : ℤ
  completionTick : ℤ
  waitingTicks : ℤ
  deriving DecidableEq, Repr

/-- The `METRIC` line of `kexit`. -/
structure Metric where
  pid : ℕ
  arrival : ℤ
  first : ℤ
  completion : ℤ
  waiting : ℤ
  turnaround : ℤ
  response : ℤ
  deriving DecidableEq, Repr

/-- The line `kexit` prints. -/
def Times.metric (pid : ℕ) (t : Times) : Metric :=
  { pid := pid
    arrival := t.arrivalTick
    first := t.firstRunTick
    completion := t.completionTick
    waiting := t.waitingTicks
    turnaround := toInt32 (t.completionTick - t.arrivalTick)
    response := toInt32 (t.firstRunTick - t.arrivalTick) }

/-- Where the timer interrupt is. -/
inductive Intr where
  | off
  /-- in `wakeup(&ticks)` -/
  | waking
  /-- at slot `i` in `update_waiting_ticks` -/
  | counting (i : Slot)
  /-- back in `usertrap` or `kerneltrap` -/
  | charging
  deriving DecidableEq, Repr

/-- One CPU: the table with its counters, who runs, and the timer interrupt. -/
structure Uni where
  proc : Slot → Proc
  times : Slot → Times
  /-- the process has been dispatched since it was allocated; not a field of the source -/
  ran : Slot → Bool
  running : Option Slot
  intr : Intr
  ticks : ℕ
  nextpid : ℕ
  initproc : Option Slot
  printed : List Metric

namespace Uni

/-- At the start. -/
def init : Uni :=
  { proc := fun _ => .unused
    times := fun _ => ⟨0, 0, 0, 0, 0⟩
    ran := fun _ => false
    running := none
    intr := .off
    ticks := 0
    nextpid := 1
    initproc := none
    printed := [] }

/-! ## Processes -/

/-- Assign to a slot of the table. -/
@[simps]
def setProc (p : Slot) (x : Proc) (u : Uni) : Uni :=
  { u with proc := Function.update u.proc p x }

/-- Assign to the counters of a slot. -/
@[simps]
def setTimes (p : Slot) (t : Times) (u : Uni) : Uni :=
  { u with times := Function.update u.times p t }

/-- Assign to the state of a slot. -/
def setState (p : Slot) (st : ProcState) (u : Uni) : Uni :=
  u.setProc p { u.proc p with state := st }

/-- `allocproc` for the slot it has found. -/
def allocproc (p : Slot) (u : Uni) : Uni :=
  { (u.setProc p { u.proc p with
      state := .used, pid := u.nextpid, priority := 0, ticksUsed := 0 }).setTimes p
        { rtime := 0, arrivalTick := toInt32 u.ticks, firstRunTick := -1, completionTick := -1,
          waitingTicks := 0 } with
    ran := Function.update u.ran p false, nextpid := u.nextpid + 1 }

/-- `freeproc`. -/
def freeproc (p : Slot) (u : Uni) : Uni :=
  (u.setProc p { u.proc p with state := .unused, chan := 0, killed := false, pid := 0 }).setTimes p
    { u.times p with rtime := 0 }

/-- `pp->parent = initproc` for the children of `p`. -/
def reparent (p : Slot) (u : Uni) : Uni :=
  { u with proc := fun i =>
      if (u.proc i).parent = some p then { u.proc i with parent := u.initproc } else u.proc i }

/-- The scheduler runs `p`. -/
def dispatch (p : Slot) (u : Uni) : Uni :=
  { (u.setState p .running).setTimes p (if (u.times p).firstRunTick = -1
      then { u.times p with firstRunTick := toInt32 u.ticks } else u.times p) with
    ran := Function.update u.ran p true, running := some p }

/-- `p` gives up the CPU. -/
def leave (p : Slot) (st : ProcState) (u : Uni) : Uni :=
  { u.setState p st with running := none }

/-- The end of `kexit`. -/
def exit (p : Slot) (u : Uni) : Uni :=
  let t := { u.times p with completionTick := toInt32 u.ticks }
  { ((u.reparent p).leave p .zombie).setTimes p t with
    printed := u.printed ++ [t.metric (u.proc p).pid] }

/-- One iteration of `update_waiting_ticks`. -/
def countWaiting (i : Slot) (u : Uni) : Uni :=
  if (u.proc i).state = .runnable then
    u.setTimes i { u.times i with waitingTicks := toInt32 ((u.times i).waitingTicks + 1) }
  else u

/-- `p->rtime++`. -/
def charge (p : Slot) (u : Uni) : Uni :=
  u.setTimes p { u.times p with rtime := toInt32 ((u.times p).rtime + 1) }

end Uni

/-- What `wakeup` and `kkill` do to a process that sleeps. -/
def Proc.wake (x : Proc) : Proc :=
  if x.state = .sleeping then { x with state := .runnable } else x

/-- What `update_waiting_ticks` does after slot `i`. -/
def Intr.after (i : Slot) : Intr :=
  if h : i.val + 1 < nproc then .counting ⟨i.val + 1, h⟩ else .charging

/-! ## Steps -/

/-- What can happen. -/
inductive UniOp where
  | userinit
  /-- the scheduler has found `p` -/
  | dispatch (p : Slot)
  | yield
  | sleepPrepare (chan : ℕ)
  | sleep
  | kexit
  /-- `kfork`: `allocproc` finds the slot, and then fails or succeeds -/
  | alloc (np : Slot) (ok : Bool)
  | setParent
  | forkDone
  /-- `kwait` finds a zombie child -/
  | reap (pp : Slot)
  /-- one iteration of `wakeup` -/
  | wakeup (chan : ℕ) (i : Slot)
  /-- one iteration of `kkill` -/
  | kkill (pid : ℕ) (i : Slot)
  /-- a timer interrupt, which counts a tick -/
  | clock
  /-- the interrupt goes on with `update_waiting_ticks` -/
  | update
  /-- the trap handler charges the process it has interrupted; in `usertrap` a process that is
      killed exits instead -/
  | charge (user : Bool)
  deriving DecidableEq, Repr

/-- What can happen while the interrupt is there. -/
def Intr.allows : Intr → UniOp → Bool
  | .off, .update | .off, .charge _ => false
  | .off, _ => true
  | .waking, .wakeup _ _ | .waking, .update => true
  | .counting _, .update => true
  | .charging, .charge _ => true
  | _, _ => false

namespace Uni

/-- A step of the process that runs. -/
def byRunning (u : Uni) (f : Slot → Option Uni) : Option Uni :=
  match u.running with
  | some p => f p
  | none => none

/-- A step, whether the interrupt lets it happen or not. -/
def perform (u : Uni) : UniOp → Option Uni
  | .userinit =>
    if u.initproc = none ∧ (u.proc 0).state = .unused then
      some { (u.allocproc 0).setState 0 .runnable with initproc := some 0 }
    else none
  | .dispatch p =>
    if u.running = none ∧ (u.proc p).state = .runnable then some (u.dispatch p) else none
  | .yield => u.byRunning fun p => some (u.leave p .runnable)
  | .sleepPrepare chan => u.byRunning fun p =>
      if chan = 0 then none else some (u.setProc p { u.proc p with chan := chan })
  | .sleep => u.byRunning fun p =>
      if (u.proc p).chan = 0 then some u else some (u.leave p .sleeping)
  | .kexit => u.byRunning fun p =>
      if u.initproc ≠ some p ∧ (u.proc p).fork = .idle then some (u.exit p) else none
  | .alloc np ok => u.byRunning fun p =>
      if (u.proc np).state = .unused ∧ (u.proc p).fork = .idle then
        let u := u.allocproc np
        if ok then some (u.setProc p { u.proc p with fork := .allocated np })
        else some (u.freeproc np)
      else none
  | .setParent => u.byRunning fun p =>
      match (u.proc p).fork with
      | .allocated np =>
        let u := u.setProc np { u.proc np with parent := some p }
        some (u.setProc p { u.proc p with fork := .parented np })
      | _ => none
  | .forkDone => u.byRunning fun p =>
      match (u.proc p).fork with
      | .parented np => some ((u.setProc p { u.proc p with fork := .idle }).setState np .runnable)
      | _ => none
  | .reap pp => u.byRunning fun p =>
      if (u.proc pp).parent = some p ∧ (u.proc pp).state = .zombie then
        some ((u.setProc pp { u.proc pp with parent := none }).freeproc pp)
      else none
  | .wakeup chan i =>
    if (u.proc i).chan = chan then some (u.setProc i ({ u.proc i with chan := 0 } : Proc).wake)
    else some u
  | .kkill pid i =>
    if (u.proc i).pid = pid then some (u.setProc i ({ u.proc i with killed := true } : Proc).wake)
    else some u
  | .clock => some { u with ticks := (u.ticks + 1) % 2 ^ 32, intr := .waking }
  | .update =>
    match u.intr with
    | .waking => some { u with intr := .counting 0 }
    | .counting i => some { u.countWaiting i with intr := .after i }
    | _ => none
  | .charge user =>
    match u.running with
    | some p =>
      if user ∧ (u.proc p).killed then some { u with intr := .off }
      else some { u.charge p with intr := .off }
    | none => some { u with intr := .off }

/-- A step. -/
def step (u : Uni) (op : UniOp) : Option Uni := if u.intr.allows op then u.perform op else none

end Uni

/-! ## What a step can do -/

/-- The steps outside the timer interrupt, but for `wakeup` and `kkill`. -/
inductive Moves (u : Uni) : UniOp → Uni → Prop where
  | userinit : u.initproc = none → (u.proc 0).state = .unused →
      Moves u .userinit { (u.allocproc 0).setState 0 .runnable with initproc := some 0 }
  | dispatch {p : Slot} : u.running = none → (u.proc p).state = .runnable →
      Moves u (.dispatch p) (u.dispatch p)
  | yield {p : Slot} : u.running = some p → Moves u .yield (u.leave p .runnable)
  | sleepPrepare {p : Slot} {chan : ℕ} : u.running = some p → chan ≠ 0 →
      Moves u (.sleepPrepare chan) (u.setProc p { u.proc p with chan := chan })
  | missed {p : Slot} : u.running = some p → (u.proc p).chan = 0 → Moves u .sleep u
  | sleep {p : Slot} : u.running = some p → (u.proc p).chan ≠ 0 →
      Moves u .sleep (u.leave p .sleeping)
  | kexit {p : Slot} : u.running = some p → u.initproc ≠ some p → (u.proc p).fork = .idle →
      Moves u .kexit (u.exit p)
  | alloc {p np : Slot} : u.running = some p → (u.proc np).state = .unused →
      (u.proc p).fork = .idle → Moves u (.alloc np true)
        ((u.allocproc np).setProc p { (u.allocproc np).proc p with fork := .allocated np })
  | allocFailed {p np : Slot} : u.running = some p → (u.proc np).state = .unused →
      (u.proc p).fork = .idle → Moves u (.alloc np false) ((u.allocproc np).freeproc np)
  | setParent {p np : Slot} : u.running = some p → (u.proc p).fork = .allocated np →
      Moves u .setParent ((u.setProc np { u.proc np with parent := some p }).setProc p
        { (u.setProc np { u.proc np with parent := some p }).proc p with fork := .parented np })
  | forkDone {p np : Slot} : u.running = some p → (u.proc p).fork = .parented np →
      Moves u .forkDone ((u.setProc p { u.proc p with fork := .idle }).setState np .runnable)
  | reap {p pp : Slot} : u.running = some p → (u.proc pp).parent = some p →
      (u.proc pp).state = .zombie →
      Moves u (.reap pp) ((u.setProc pp { u.proc pp with parent := none }).freeproc pp)

/-- The steps of `wakeup` and `kkill`. -/
inductive Wakes (u : Uni) : UniOp → Uni → Prop where
  | notChan {chan : ℕ} {i : Slot} : (u.proc i).chan ≠ chan → Wakes u (.wakeup chan i) u
  | notPid {pid : ℕ} {i : Slot} : (u.proc i).pid ≠ pid → Wakes u (.kkill pid i) u
  | wakeup {i : Slot} : Wakes u (.wakeup (u.proc i).chan i)
      (u.setProc i ({ u.proc i with chan := 0 } : Proc).wake)
  | kkill {i : Slot} : Wakes u (.kkill (u.proc i).pid i)
      (u.setProc i ({ u.proc i with killed := true } : Proc).wake)

/-- The steps of the timer interrupt. -/
inductive Ticks (u : Uni) : UniOp → Uni → Prop where
  | clock : u.intr = .off →
      Ticks u .clock { u with ticks := (u.ticks + 1) % 2 ^ 32, intr := .waking }
  | start : u.intr = .waking → Ticks u .update { u with intr := .counting 0 }
  | count {i : Slot} : u.intr = .counting i →
      Ticks u .update { u.countWaiting i with intr := .after i }
  | charge {p : Slot} {user : Bool} : u.intr = .charging → u.running = some p →
      Ticks u (.charge user) { u.charge p with intr := .off }
  | spare {user : Bool} : u.intr = .charging → Ticks u (.charge user) { u with intr := .off }

section
variable {u u' : Uni} {op : UniOp}

theorem Uni.byRunning_eq_some {f : Slot → Option Uni} (h : u.byRunning f = some u') :
    ∃ p, u.running = some p ∧ f p = some u' := by
  unfold Uni.byRunning at h
  split at h
  · exact ⟨_, ‹_›, h⟩
  · cases h

theorem Moves.off (hm : Moves u op u') (h : u.intr.allows op = true) : u.intr = .off := by
  revert h
  cases hm <;> cases u.intr <;> simp [Intr.allows]

/-- **Every step is one of these.** -/
theorem moves_of_step (h : u.step op = some u') :
    u.intr = .off ∧ Moves u op u' ∨ Wakes u op u' ∨ Ticks u op u' := by
  obtain ⟨hallows, hs⟩ := Option.ite_none_right_eq_some.1 h
  have move (hm : Moves u op u') : u.intr = .off ∧ Moves u op u' ∨ Wakes u op u' ∨ Ticks u op u' :=
    .inl ⟨hm.off hallows, hm⟩
  cases op with
  | userinit =>
    obtain ⟨⟨hi, hu⟩, hs⟩ := Option.ite_none_right_eq_some.1 hs
    cases hs
    exact move (.userinit hi hu)
  | dispatch p =>
    obtain ⟨⟨hr, hp⟩, hs⟩ := Option.ite_none_right_eq_some.1 hs
    cases hs
    exact move (.dispatch hr hp)
  | yield =>
    obtain ⟨p, hr, hs⟩ := Uni.byRunning_eq_some hs
    cases hs
    exact move (.yield hr)
  | sleepPrepare chan =>
    obtain ⟨p, hr, hs⟩ := Uni.byRunning_eq_some hs
    obtain ⟨h0, hs⟩ := Option.ite_none_left_eq_some.1 hs
    cases hs
    exact move (.sleepPrepare hr h0)
  | sleep =>
    obtain ⟨p, hr, hs⟩ := Uni.byRunning_eq_some hs
    split at hs
    · cases hs
      exact move (.missed hr ‹_›)
    · cases hs
      exact move (.sleep hr ‹_›)
  | kexit =>
    obtain ⟨p, hr, hs⟩ := Uni.byRunning_eq_some hs
    obtain ⟨⟨hi, hf⟩, hs⟩ := Option.ite_none_right_eq_some.1 hs
    cases hs
    exact move (.kexit hr hi hf)
  | alloc np ok =>
    obtain ⟨p, hr, hs⟩ := Uni.byRunning_eq_some hs
    obtain ⟨⟨hu, hf⟩, hs⟩ := Option.ite_none_right_eq_some.1 hs
    cases ok with
    | true => cases hs; exact move (.alloc hr hu hf)
    | false => cases hs; exact move (.allocFailed hr hu hf)
  | setParent =>
    obtain ⟨p, hr, hs⟩ := Uni.byRunning_eq_some hs
    split at hs
    · cases hs
      exact move (.setParent hr ‹_›)
    · cases hs
  | forkDone =>
    obtain ⟨p, hr, hs⟩ := Uni.byRunning_eq_some hs
    split at hs
    · cases hs
      exact move (.forkDone hr ‹_›)
    · cases hs
  | reap pp =>
    obtain ⟨p, hr, hs⟩ := Uni.byRunning_eq_some hs
    obtain ⟨⟨hp, hz⟩, hs⟩ := Option.ite_none_right_eq_some.1 hs
    cases hs
    exact move (.reap hr hp hz)
  | wakeup chan i =>
    simp only [Uni.perform] at hs
    split at hs
    · rename_i hchan
      subst hchan
      cases hs
      exact .inr (.inl .wakeup)
    · cases hs
      exact .inr (.inl (.notChan ‹_›))
  | kkill pid i =>
    simp only [Uni.perform] at hs
    split at hs
    · rename_i hpid
      subst hpid
      cases hs
      exact .inr (.inl .kkill)
    · cases hs
      exact .inr (.inl (.notPid ‹_›))
  | clock =>
    have hi : u.intr = .off := by
      revert hallows
      cases u.intr <;> simp [Intr.allows]
    cases hs
    exact .inr (.inr (.clock hi))
  | update =>
    simp only [Uni.perform] at hs
    split at hs
    · cases hs
      exact .inr (.inr (.start ‹_›))
    · cases hs
      exact .inr (.inr (.count ‹_›))
    · cases hs
  | charge user =>
    have hi : u.intr = .charging := by
      revert hallows
      cases u.intr <;> simp [Intr.allows]
    simp only [Uni.perform] at hs
    split at hs
    · split at hs
      · cases hs
        exact .inr (.inr (.spare hi))
      · cases hs
        exact .inr (.inr (.charge hi ‹_›))
    · cases hs
      exact .inr (.inr (.spare hi))

/-- The interrupt leaves the processes alone. -/
theorem Ticks.frame (hm : Ticks u op u') : u'.proc = u.proc ∧ u'.ran = u.ran ∧
    u'.running = u.running ∧ u'.nextpid = u.nextpid ∧ u'.initproc = u.initproc := by
  cases hm with
  | clock _ | start _ | charge _ _ | spare _ => exact ⟨rfl, rfl, rfl, rfl, rfl⟩
  | count _ =>
    unfold Uni.countWaiting
    split <;> exact ⟨rfl, rfl, rfl, rfl, rfl⟩

/-! ## What every run keeps -/

/-- What every run keeps. -/
structure Uni.Wf (u : Uni) : Prop where
  forks : Forks u.proc
  running : ∀ p, u.running = some p → (u.proc p).state = .running ∧ u.ran p = true

variable {p np : Slot} {x : Proc} {st : ProcState}

theorem reparent_same (u : Uni) (p i : Slot) :
    ((u.reparent p).proc i).state = (u.proc i).state ∧
      ((u.reparent p).proc i).priority = (u.proc i).priority ∧
      ((u.reparent p).proc i).fork = (u.proc i).fork ∧
      ((u.reparent p).proc i).pid = (u.proc i).pid := by
  simp only [Uni.reparent]
  split <;> exact ⟨rfl, rfl, rfl, rfl⟩

namespace Uni.Wf

theorem setProc (h : u.Wf) (hf : Forks (Function.update u.proc p x))
    (hr : u.running = some p → x.state = .running) : (u.setProc p x).Wf := by
  refine ⟨hf, fun i hi => ?_⟩
  simp only [Uni.setProc] at hi ⊢
  by_cases hip : i = p
  · subst hip
    rw [Function.update_self]
    exact ⟨hr hi, (h.running i hi).2⟩
  · rw [Function.update_of_ne hip]
    exact h.running i hi

/-- The process that runs is not one in another state. -/
theorem not_running (h : u.Wf) (hp : (u.proc p).state ≠ .running) : u.running ≠ some p :=
  fun hr => hp (h.running p hr).1

theorem ne_running (h : u.Wf) (hr : u.running = some p) (hst : (u.proc np).state ≠ .running) :
    np ≠ p := by
  rintro rfl
  exact h.not_running hst hr

theorem live (h : u.Wf) (hr : u.running = some p) : (u.proc p).state ≠ .unused := by
  rw [(h.running p hr).1]
  intro hu
  cases hu

/-- A process that does not run and is nobody's pending child changes its state. -/
theorem setState (h : u.Wf) (hr : (u.proc p).state ≠ .running)
    (hc : ∀ p', (u.proc p').fork.child ≠ some p) : (u.setState p st).Wf :=
  h.setProc (h.forks.update rfl fun p' hp' => absurd hp' (hc p'))
    fun hp => absurd hp (h.not_running hr)

/-- A process changes within its state. -/
theorem touch (h : u.Wf) (hst : x.state = (u.proc p).state)
    (hpr : x.priority = (u.proc p).priority) (hf : x.fork = (u.proc p).fork) :
    (u.setProc p x).Wf :=
  h.setProc (h.forks.update_same hf hst fun h0 => hpr.trans h0)
    fun hp => hst.trans (h.running p hp).1

theorem setFork (h : u.Wf) {f : Fork}
    (hf : ∀ np, f.child = some np → ((u.proc np).state = .used ∧ (u.proc np).priority = 0) ∧
      ∀ p', (u.proc p').fork.child = some np → p' = p) :
    (u.setProc p { u.proc p with fork := f }).Wf :=
  h.setProc (h.forks.setFork hf) fun hp => (h.running p hp).1

theorem leave (h : u.Wf) (hp : u.running = some p) : (u.leave p st).Wf := by
  refine ⟨h.forks.update_of_ne ?_ rfl, nofun⟩
  rw [(h.running p hp).1]
  intro hu
  cases hu

theorem dispatch (h : u.Wf) (hp : (u.proc p).state = .runnable) : (u.dispatch p).Wf := by
  refine ⟨h.forks.update_of_ne ?_ rfl, ?_⟩
  · rw [hp]
    intro hu
    cases hu
  · rintro i ⟨⟩
    simp [Uni.dispatch, Uni.setTimes, Uni.setState, Uni.setProc]

theorem allocproc (h : u.Wf) (hp : (u.proc p).state = .unused) :
    (u.allocproc p).Wf ∧ ∀ p', ((u.allocproc p).proc p').fork.child ≠ some p := by
  have hu : (u.proc p).state ≠ .used := by rw [hp]; intro hu; cases hu
  refine ⟨⟨h.forks.update_of_ne hu rfl, fun i hi => ?_⟩, fun p' => ?_⟩
  · have hip : i ≠ p := (h.ne_running hi (by rw [hp]; decide)).symm
    simp only [Uni.allocproc, Uni.setTimes, Uni.setProc, Function.update_of_ne hip]
    exact h.running i hi
  · have hc := h.forks.not_child hu p'
    by_cases hp' : p' = p
    · subst hp'
      simpa [Uni.allocproc, Uni.setTimes, Uni.setProc] using hc
    · simpa [Uni.allocproc, Uni.setTimes, Uni.setProc, hp'] using hc

theorem freeproc (h : u.Wf) (hr : (u.proc p).state ≠ .running)
    (hc : ∀ p', (u.proc p').fork.child ≠ some p) : (u.freeproc p).Wf := by
  have h' : (u.setProc p { u.proc p with
      state := .unused, chan := 0, killed := false, pid := 0 }).Wf :=
    h.setProc (h.forks.update rfl fun p' hp' => absurd hp' (hc p'))
      fun hp => absurd hp (h.not_running hr)
  exact ⟨h'.forks, h'.running⟩

theorem reparent (h : u.Wf) (p : Slot) : (u.reparent p).Wf := by
  refine ⟨h.forks.congr fun i => ?_, fun i hi => ?_⟩
  · obtain ⟨hst, hpr, hf, -⟩ := reparent_same u p i
    exact ⟨hst, hpr, hf⟩
  · rw [(reparent_same u p i).1]
    exact h.running i hi

theorem wake (h : u.Wf) (hst : x.state = (u.proc p).state)
    (hpr : x.priority = (u.proc p).priority) (hf : x.fork = (u.proc p).fork) :
    (u.setProc p x.wake).Wf := by
  unfold Proc.wake
  split
  · rename_i hs
    have hp : (u.proc p).state = .sleeping := hst.symm.trans hs
    refine h.setProc (h.forks.update_of_ne ?_ hf) fun hr => ?_
    · rw [hp]
      intro hu
      cases hu
    · refine absurd hr (h.not_running ?_)
      rw [hp]
      intro hr
      cases hr
  · exact h.touch hst hpr hf

/-- **A step outside the interrupt keeps the invariant.** -/
theorem moves (h : u.Wf) (hm : Moves u op u') : u'.Wf := by
  cases hm with
  | userinit _ hu =>
    obtain ⟨h', hc⟩ := h.allocproc hu
    have h'' : ((u.allocproc 0).setState 0 .runnable).Wf := by
      refine h'.setState ?_ hc
      simp [Uni.allocproc, Uni.setTimes, Uni.setProc]
    exact ⟨h''.forks, h''.running⟩
  | dispatch _ hp => exact h.dispatch hp
  | yield hr => exact h.leave hr
  | sleepPrepare _ _ => exact h.touch rfl rfl rfl
  | missed _ _ => exact h
  | sleep hr _ => exact h.leave hr
  | @kexit p hr _ _ =>
    have h' : ((u.reparent p).leave p .zombie).Wf := (h.reparent p).leave hr
    refine ⟨h'.forks, ?_⟩
    intro q hq
    cases hq
  | alloc _ hu _ =>
    obtain ⟨h', hc⟩ := h.allocproc hu
    refine h'.setFork ?_
    rintro i ⟨⟩
    refine ⟨?_, fun p' hp' => absurd hp' (hc p')⟩
    simp [Uni.allocproc, Uni.setTimes, Uni.setProc]
  | allocFailed _ hu _ =>
    obtain ⟨h', hc⟩ := h.allocproc hu
    refine h'.freeproc ?_ hc
    simp [Uni.allocproc, Uni.setTimes, Uni.setProc]
  | @setParent p np _ hf =>
    have h' : (u.setProc np { u.proc np with parent := some p }).Wf := h.touch rfl rfl rfl
    have hf' : ((u.setProc np { u.proc np with parent := some p }).proc p).fork.child = some np := by
      by_cases hp : p = np
      · subst hp
        simp [Uni.setProc, hf, Fork.child]
      · simp [Uni.setProc, hp, hf, Fork.child]
    refine h'.setFork ?_
    rintro i ⟨⟩
    exact ⟨h'.forks.child p np hf', fun p' hp' => h'.forks.owner p' p np hp' hf'⟩
  | @forkDone p np hr hf =>
    have hf' : (u.proc p).fork.child = some np := by rw [hf]; rfl
    have h' : (u.setProc p { u.proc p with fork := .idle }).Wf := by
      refine h.setFork ?_
      intro i hi
      cases hi
    have hst := (h.forks.child p np hf').1
    have hne : np ≠ p := h.ne_running hr (by rw [hst]; decide)
    refine h'.setState ?_ fun p' hp' => ?_
    · simp [Uni.setProc, hne, hst]
    · by_cases hp : p' = p
      · subst hp
        simp [Uni.setProc, Fork.child] at hp'
      · simp only [Uni.setProc, Function.update_of_ne hp] at hp'
        exact hp (h.forks.owner p' p np hp' hf')
  | @reap p pp _ _ hz =>
    have h' : (u.setProc pp { u.proc pp with parent := none }).Wf := h.touch rfl rfl rfl
    refine h'.freeproc ?_ (h'.forks.not_child ?_) <;> simp [Uni.setProc, hz]

theorem wakes (h : u.Wf) (hm : Wakes u op u') : u'.Wf := by
  cases hm with
  | notChan _ | notPid _ => exact h
  | wakeup | kkill => exact h.wake rfl rfl rfl

theorem ticks (h : u.Wf) (hm : Ticks u op u') : u'.Wf := by
  obtain ⟨hproc, hran, hrunning, -, -⟩ := hm.frame
  refine ⟨?_, ?_⟩
  · rw [hproc]
    exact h.forks
  · rw [hproc, hran, hrunning]
    exact h.running

end Uni.Wf

theorem wf_of_reach {G : Uni → UniOp → Prop} (h : Reach Uni.step G Uni.init u) : u.Wf := by
  refine h.invariant ⟨⟨nofun, nofun⟩, nofun⟩ fun u op u' hu _ hs => ?_
  obtain ⟨-, hm⟩ | hm | hm := moves_of_step hs
  · exact hu.moves hm
  · exact hu.wakes hm
  · exact hu.ticks hm

/-! ## What a step does to a process -/

/-- The ways of a process from one state to the next, but for its beginning, its dispatch and
    its end. -/
inductive Goes : ProcState → ProcState → Prop where
  | same {st : ProcState} : Goes st st
  | forked : Goes .used .runnable
  | yielded : Goes .running .runnable
  | slept : Goes .running .sleeping
  | exited : Goes .running .zombie
  | woken : Goes .sleeping .runnable

theorem Goes.live {st st' : ProcState} (h : Goes st st') (hst' : st' ≠ .unused) :
    st ≠ .unused := by
  cases h with
  | same => exact hst'
  | _ => intro hu; cases hu

theorem Goes.used {st st' : ProcState} (h : Goes st st') (hst' : st' = .used) : st = .used := by
  cases h with
  | same => exact hst'
  | _ => cases hst'

/-- A process that has not run yet stays so. -/
theorem Goes.fresh {st st' : ProcState} (h : Goes st st') (hst : st = .used ∨ st = .runnable) :
    st' = .used ∨ st' = .runnable := by
  cases h with
  | same => exact hst
  | forked => exact Or.inr rfl
  | _ => rcases hst with hst | hst <;> cases hst

/-- The counters that `update_waiting_ticks` and the trap handlers keep, and the ticks they
    count from, are the same. -/
structure Times.Same (t t' : Times) : Prop where
  rtime : t'.rtime = t.rtime
  arrivalTick : t'.arrivalTick = t.arrivalTick
  firstRunTick : t'.firstRunTick = t.firstRunTick
  waitingTicks : t'.waitingTicks = t.waitingTicks

/-- The steps that end with a new process in slot `i`. -/
def UniOp.Allocates (op : UniOp) (i : Slot) : Prop :=
  op = .alloc i true ∨ op = .userinit ∧ i = 0

/-- What becomes of process `i` in a step outside the interrupt. -/
inductive Becomes (u : Uni) (op : UniOp) (u' : Uni) (i : Slot) : Prop where
  | free : (u'.proc i).state = .unused → Becomes u op u' i
  | stays : Goes (u.proc i).state (u'.proc i).state → (u'.proc i).pid = (u.proc i).pid →
      u'.ran i = u.ran i → (u.times i).Same (u'.times i) → Becomes u op u' i
  | dispatched : op = .dispatch i → (u.proc i).state = .runnable → u' = u.dispatch i →
      Becomes u op u' i
  | allocated : op.Allocates i → (u.proc i).state = .unused →
      (u'.proc i).state = .used ∨ (u'.proc i).state = .runnable →
      (u'.proc i).pid = u.nextpid → u'.nextpid = u.nextpid + 1 → u'.ran i = false →
      u'.times i = ⟨0, toInt32 u.ticks, -1, -1, 0⟩ → Becomes u op u' i

variable {i : Slot}

theorem Becomes.goes (hg : Goes (u.proc i).state (u'.proc i).state)
    (hpid : (u'.proc i).pid = (u.proc i).pid) (hr : u'.ran i = u.ran i)
    (ht : u'.times i = u.times i) : Becomes u op u' i := by
  refine .stays hg hpid hr ?_
  rw [ht]
  exact ⟨rfl, rfl, rfl, rfl⟩

theorem Becomes.of_same (hst : (u'.proc i).state = (u.proc i).state)
    (hpid : (u'.proc i).pid = (u.proc i).pid) (hr : u'.ran i = u.ran i)
    (ht : u'.times i = u.times i) : Becomes u op u' i := by
  refine .goes ?_ hpid hr ht
  rw [hst]
  exact .same

theorem Becomes.of_eq (hp : u'.proc i = u.proc i) (hr : u'.ran i = u.ran i)
    (ht : u'.times i = u.times i) : Becomes u op u' i :=
  .of_same (by rw [hp]) (by rw [hp]) hr ht

/-- Only the process `p` changes, and its counters do not. -/
theorem Becomes.setProc (hp : u'.proc = Function.update u.proc p x) (hr : u'.ran = u.ran)
    (ht : u'.times = u.times) (hpid : x.pid = (u.proc p).pid)
    (hx : Goes (u.proc p).state x.state) : Becomes u op u' i := by
  by_cases hi : i = p
  · subst hi
    refine .goes ?_ ?_ (by rw [hr]) (by rw [ht])
    · rw [hp, Function.update_self]
      exact hx
    · rw [hp, Function.update_self]
      exact hpid
  · exact .of_eq (by rw [hp, Function.update_of_ne hi]) (by rw [hr]) (by rw [ht])

theorem Moves.becomes (h : u.Wf) (hm : Moves u op u') (i : Slot) : Becomes u op u' i := by
  cases hm with
  | userinit _ hu =>
    by_cases hi : i = 0
    · subst hi
      refine .allocated (.inr ⟨rfl, rfl⟩) hu (.inr ?_) ?_ rfl ?_ ?_ <;>
        simp [Uni.allocproc, Uni.setState]
    · refine .of_eq ?_ ?_ ?_ <;> simp [Uni.allocproc, Uni.setState, hi]
  | @dispatch p hr hp =>
    by_cases hi : i = p
    · subst hi
      exact .dispatched rfl hp rfl
    · refine .of_eq ?_ ?_ ?_ <;> simp [Uni.dispatch, Uni.setState, hi]
  | yield hr =>
    refine .setProc rfl rfl rfl rfl ?_
    rw [(h.running _ hr).1]
    exact .yielded
  | sleepPrepare _ _ => exact .setProc rfl rfl rfl rfl .same
  | missed _ _ => exact .of_eq rfl rfl rfl
  | sleep hr _ =>
    refine .setProc rfl rfl rfl rfl ?_
    rw [(h.running _ hr).1]
    exact .slept
  | @kexit p hr _ _ =>
    have hsame := reparent_same u p i
    by_cases hi : i = p
    · subst hi
      refine .stays ?_ ?_ rfl ?_
      · rw [(h.running i hr).1]
        simpa [Uni.exit, Uni.leave, Uni.setState] using .exited
      · simpa [Uni.exit, Uni.leave, Uni.setState] using hsame.2.2.2
      · simpa [Uni.exit, Uni.leave, Uni.setState] using ⟨rfl, rfl, rfl, rfl⟩
    · refine .stays ?_ ?_ rfl ?_
      · simpa [Uni.exit, Uni.leave, Uni.setState, hi, hsame.1] using .same
      · simpa [Uni.exit, Uni.leave, Uni.setState, hi] using hsame.2.2.2
      · simpa [Uni.exit, Uni.leave, Uni.setState, hi] using ⟨rfl, rfl, rfl, rfl⟩
  | @alloc p np hr hu _ =>
    by_cases hi : i = np
    · subst hi
      have hne : i ≠ p := h.ne_running hr (by rw [hu]; decide)
      refine .allocated (.inl rfl) hu (.inl ?_) ?_ rfl ?_ ?_ <;> simp [Uni.allocproc, hne]
    · by_cases hp : i = p
      · subst hp
        refine .of_same ?_ ?_ ?_ ?_ <;> simp [Uni.allocproc, hi]
      · refine .of_eq ?_ ?_ ?_ <;> simp [Uni.allocproc, hi, hp]
  | @allocFailed p np _ hu _ =>
    by_cases hi : i = np
    · subst hi
      exact .free (by simp [Uni.freeproc])
    · refine .of_eq ?_ ?_ ?_ <;> simp [Uni.freeproc, Uni.allocproc, hi]
  | setParent _ _ =>
    refine .of_same ?_ ?_ rfl rfl
    · refine (update_field Proc.state ?_ i).trans (update_field Proc.state ?_ i) <;> rfl
    · refine (update_field Proc.pid ?_ i).trans (update_field Proc.pid ?_ i) <;> rfl
  | @forkDone p np hr hf =>
    have hst : (u.proc np).state = .used := (h.forks.child p np (by rw [hf]; rfl)).1
    have hne : np ≠ p := h.ne_running hr (by rw [hst]; decide)
    by_cases hn : i = np
    · subst hn
      refine .goes ?_ ?_ rfl rfl
      · rw [hst]
        simpa [Uni.setState] using .forked
      · simp [Uni.setState, hne]
    · by_cases hp : i = p
      · subst hp
        refine .of_same ?_ ?_ rfl rfl <;> simp [Uni.setState, hn]
      · refine .of_eq ?_ rfl rfl
        simp [Uni.setState, hn, hp]
  | @reap p pp _ _ hz =>
    by_cases hi : i = pp
    · subst hi
      exact .free (by simp [Uni.freeproc])
    · refine .of_eq ?_ ?_ ?_ <;> simp [Uni.freeproc, hi]

theorem Moves.intr_ticks (hm : Moves u op u') : u'.intr = u.intr ∧ u'.ticks = u.ticks := by
  cases hm <;> exact ⟨rfl, rfl⟩

theorem Moves.nextpid_le (hm : Moves u op u') : u.nextpid ≤ u'.nextpid := by
  cases hm with
  | userinit | alloc | allocFailed => exact Nat.le_succ _
  | _ => exact Nat.le_refl _

theorem Proc.wake_goes (x : Proc) :
    Goes x.state x.wake.state ∧ x.wake.pid = x.pid ∧ x.wake.fork = x.fork := by
  unfold Proc.wake
  split
  · rename_i hs
    rw [hs]
    exact ⟨.woken, rfl, rfl⟩
  · exact ⟨.same, rfl, rfl⟩

/-- `wakeup` and `kkill` change nothing but a process, which goes its way. -/
theorem Wakes.goes (hm : Wakes u op u') : ∃ proc : Slot → Proc, u' = { u with proc := proc } ∧
    ∀ i, Goes (u.proc i).state (proc i).state ∧ (proc i).pid = (u.proc i).pid ∧
      (proc i).fork = (u.proc i).fork := by
  have hwake (p : Slot) (x : Proc) (hst : x.state = (u.proc p).state)
      (hpid : x.pid = (u.proc p).pid) (hf : x.fork = (u.proc p).fork) :
      ∀ i, Goes (u.proc i).state (Function.update u.proc p x.wake i).state ∧
        (Function.update u.proc p x.wake i).pid = (u.proc i).pid ∧
        (Function.update u.proc p x.wake i).fork = (u.proc i).fork := by
    intro i
    by_cases hi : i = p
    · subst hi
      rw [Function.update_self, ← hst, ← hpid, ← hf]
      exact x.wake_goes
    · rw [Function.update_of_ne hi]
      exact ⟨.same, rfl, rfl⟩
  cases hm with
  | notChan _ | notPid _ => exact ⟨u.proc, rfl, fun i => ⟨.same, rfl, rfl⟩⟩
  | wakeup | kkill => exact ⟨_, rfl, hwake _ _ rfl rfl rfl⟩

end

end Xv6
