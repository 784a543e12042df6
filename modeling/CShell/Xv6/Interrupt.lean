/-
  xv6 formalization — a timer interrupt on one CPU (`trap.c`).

  `clockintr` counts the tick, wakes up the sleepers on `ticks` and calls
  `mlfq_boost` if it is time.  Then `usertrap` or `kerneltrap` charges the tick
  to the process that was interrupted, if there is one, and this process yields
  if its slice is over or a higher queue is not empty.  The interrupt is a run
  of steps of the kernel (`reachable_timerInterrupt`).

  `lifted_iff`: when the interrupt is over, every process is at priority 0 and
  every runnable one in queue 0 iff the interrupt has found the scheduler
  looking for a process, or a process that is not charged because it was
  killed.  The slice of queue 0 is a single tick, so that a process that is
  charged after the boost is demoted at once.
-/
import CShell.Xv6.Lists

namespace Xv6

open Lib

/-- The handler the interrupt goes through. -/
inductive Trap where
  | user
  | kernel
  deriving DecidableEq, Repr

namespace State

/-- `ticks++` and `wakeup(&ticks)`. -/
def clockActs (chan : ℕ) : List (Act 1) :=
  .on 0 .clock :: (List.finRange nproc).map fun i => .on 0 (.wakeup chan i)

/-- `clockintr`; `chan` stands for `&ticks`. -/
def clockintr (chan : ℕ) (s : State 1) : Option (State 1) := do
  let s ← run State.step (clockActs chan) s
  s.boostRun boostLimit

/-- `mlfq_highest_priority_ready`: a process waits in a queue above the one of `p`. -/
def mlfqHighestPriorityReady (p : Slot) (s : State 1) : Bool :=
  (List.range (s.proc p).priority).any fun q => (s.queues q).head.isSome

/-- `mlfq_tick`, with the demotion at the end of the slice, and the `yield` after it. -/
def chargeTick (p : Slot) (s : State 1) : Option (State 1) := do
  let s' ← s.step (.on 0 .tick)
  if timeSlice.getD (s.proc p).priority 0 ≤ (s.proc p).ticksUsed + 1 ∨
      s'.mlfqHighestPriorityReady p then s'.step (.on 0 .yield)
  else some s'

/-- A timer interrupt.  A killed process goes on to `kexit` when it comes from user space. -/
def timerInterrupt (chan : ℕ) (trap : Trap) (s : State 1) : Option (State 1) := do
  let s ← s.clockintr chan
  match s.cpu 0 with
  | .running p => if trap = .user ∧ (s.proc p).killed then some s else s.chargeTick p
  | _ => if trap = .user then none else some s

end State

variable {s s' : State 1} {p : Slot} {chan : ℕ} {trap : Trap}

/-! ## The interrupt as a run -/

theorem reachable_boostRun {n : ℕ} (h : Reachable State.step State.init s)
    (hs : s.boostRun n = some s') : Reachable State.step State.init s' := by
  induction n generalizing s with
  | zero =>
    obtain ⟨-, hs⟩ := Option.ite_none_right_eq_some.1 hs
    cases hs
    exact h
  | succ n ih =>
    rw [State.boostRun] at hs
    split at hs
    · cases hs
      exact h
    · obtain ⟨t, ht, hs⟩ := Option.bind_eq_some_iff.1 hs
      exact ih (.next (a := .boost) h trivial ht) hs

theorem reachable_clockintr (h : Reachable State.step State.init s)
    (hs : s.clockintr chan = some s') : Reachable State.step State.init s' := by
  obtain ⟨t, ht, hs⟩ := Option.bind_eq_some_iff.1 hs
  exact reachable_boostRun (h.run ht) hs

/-- The interrupt is a run of the kernel. -/
theorem reachable_timerInterrupt (h : Reachable State.step State.init s)
    (hs : s.timerInterrupt chan trap = some s') : Reachable State.step State.init s' := by
  obtain ⟨t, ht, hs⟩ := Option.bind_eq_some_iff.1 hs
  have htr := reachable_clockintr h ht
  split at hs
  · split at hs
    · cases hs
      exact htr
    · obtain ⟨u, hu, hs⟩ := Option.bind_eq_some_iff.1 hs
      have hur : Reachable State.step State.init u := .next htr trivial hu
      split at hs
      · exact .next hur trivial hs
      · cases hs
        exact hur
  · obtain ⟨-, hs⟩ := Option.ite_none_left_eq_some.1 hs
    cases hs
    exact htr

/-! ## `clockintr` -/

theorem step_of_off (hb : s.boost = .off) (op : Op) : s.step (.on 0 op) = s.perform 0 op := by
  rw [State.step, if_neg]
  rw [hb]
  simp [Boost.allows]

/-- What `wakeup` does not change. -/
structure Woken (s s' : State 1) : Prop where
  cpu : s'.cpu = s.cpu
  boost : s'.boost = s.boost
  killed : ∀ p, (s'.proc p).killed = (s.proc p).killed

theorem Woken.trans {t : State 1} (h : Woken s t) (h' : Woken t s') : Woken s s' where
  cpu := h'.cpu.trans h.cpu
  boost := h'.boost.trans h.boost
  killed p := (h'.killed p).trans (h.killed p)

theorem Marks.killed {i : Slot} {x : Proc} {c : ℕ} (hm : Marks s (.wakeup c i) p x) :
    x.killed = (s.proc p).killed := by
  cases hm
  rfl

theorem killed_setProc {x : Proc} (hx : x.killed = (s.proc p).killed) (i : Slot) :
    ((s.setProc p x).proc i).killed = (s.proc i).killed := by
  show (Function.update s.proc p x i).killed = (s.proc i).killed
  by_cases hi : i = p
  · subst hi
    rw [Function.update_self, hx]
  · rw [Function.update_of_ne hi]

/-- One iteration of `wakeup`. -/
theorem Woken.of_wakeup {i : Slot} (hs : s.perform 0 (.wakeup chan i) = some s') : Woken s s' := by
  cases performs_of_perform hs with
  | notChan _ => exact ⟨rfl, rfl, fun _ => rfl⟩
  | awake hm _ => exact ⟨rfl, rfl, killed_setProc hm.killed⟩
  | @woken _ p x hm _ =>
    refine ⟨rfl, rfl, fun i => ?_⟩
    have hrun := killed_setProc (s := s.setProc p x) (p := p)
      (x := { (s.setProc p x).proc p with state := .runnable }) rfl i
    exact hrun.trans (killed_setProc hm.killed i)

theorem exists_wakeup (chan : ℕ) (i : Slot) (s : State 1) :
    ∃ s', s.perform 0 (.wakeup chan i) = some s' := by
  simp only [State.perform]
  split
  · split <;> exact ⟨_, rfl⟩
  · exact ⟨_, rfl⟩

/-- `wakeup` can be called while the boost is not under way. -/
theorem exists_wakeups (chan : ℕ) (is : List Slot) (hb : s.boost = .due) :
    ∃ s', run State.step (is.map fun i => .on 0 (.wakeup chan i)) s = some s' ∧ Woken s s' := by
  induction is generalizing s with
  | nil => exact ⟨s, rfl, rfl, rfl, fun _ => rfl⟩
  | cons i is ih =>
    obtain ⟨t, ht⟩ := exists_wakeup chan i s
    have hw := Woken.of_wakeup ht
    obtain ⟨s', hs', hw'⟩ := ih (hw.boost.trans hb)
    refine ⟨s', ?_, hw.trans hw'⟩
    have hstep : s.step (.on 0 (.wakeup chan i)) = some t := by
      rw [State.step, hb]
      exact ht
    rw [List.map_cons, run, hstep, Option.bind_some]
    exact hs'

/-- The queues of a reachable state. -/
theorem Inv.queued {ncpu : ℕ} {s : State ncpu} {W : Slot → Prop} {L : ℕ → List Slot}
    {loc : Slot → Option (Place ncpu)} (h : Inv W s L loc) : Queued s fun q => L q := by
  refine ⟨⟨fun q => h.placed.queue q, fun q q' x hx hx' => ?_⟩, fun q p hp => ?_⟩
  · exact Fin.ext (h.placed.areQueues.unique q q' x hx hx')
  · exact h.scheduled.queued q q.isLt p hp

/-- **`clockintr` at a boost**: every process is reset, and all that wait are in queue 0. -/
theorem exists_clockintr (h : Reachable State.step State.init s) (hb : s.boost = .off)
    (h48 : (s.ticks + 1) % 2 ^ 32 % 48 = 0) (chan : ℕ) :
    ∃ s' L, s.clockintr chan = some s' ∧ s'.boost = .off ∧ Queued s' (boostedLists L) ∧
      s'.cpu = s.cpu ∧ (∀ p, s'.proc p = (s'.proc p).raise) ∧
      ∀ p, (s'.proc p).killed = (s.proc p).killed := by
  set t : State 1 := { s with ticks := (s.ticks + 1) % 2 ^ 32, boost := .due } with ht
  have hclock : s.step (.on 0 .clock) = some t := by
    rw [step_of_off hb, State.perform, if_pos (show (0 : Fin 1).val = 0 from rfl)]
    simp only [if_pos h48, ht]
  obtain ⟨u, hu, hw⟩ := exists_wakeups chan (List.finRange nproc) (s := t) rfl
  have hrun : run State.step (State.clockActs chan) s = some u := by
    rw [State.clockActs, run, hclock, Option.bind_some]
    exact hu
  obtain ⟨L, loc, hI⟩ := consistent_of_reachable (h.run hrun)
  obtain ⟨s', hs', hoff, hq, hcpu, hproc⟩ := hI.queued.mlfqBoost
  have hdue : { u with boost := .due } = u := by rw [← show u.boost = .due from hw.boost]
  rw [State.mlfqBoost, hdue] at hs'
  refine ⟨s', fun q => L q, ?_, hoff, hq, hcpu.trans hw.cpu, fun p => ?_, fun p => ?_⟩
  · rw [State.clockintr, hrun]
    show (some u).bind (State.boostRun boostLimit) = some s'
    rw [Option.bind_some]
    exact hs'
  · rw [hproc p]
    rfl
  · rw [hproc p]
    exact hw.killed p

/-! ## After the boost -/

/-- Every live process is at priority 0, and every runnable one in queue 0. -/
structure Lifted (s : State 1) : Prop where
  priority : ∀ p, (s.proc p).state ≠ .unused → (s.proc p).priority = 0
  queued : ∀ p, (s.proc p).state = .runnable → s.InQueue 0 p

/-- What the boost leaves is lifted unless the scheduler has taken a process. -/
theorem lifted_iff_not_holding {L : Fin 4 → List Slot} (h : Reachable State.step State.init s)
    (hb : s.boost = .off) (hq : Queued s (boostedLists L))
    (hproc : ∀ p, s.proc p = (s.proc p).raise) : Lifted s ↔ ∀ p, s.cpu 0 ≠ .holding p := by
  obtain ⟨L', loc, hI⟩ := consistent_of_reachable h
  have hsched := hI.scheduled
  constructor
  · intro hl p hp
    obtain ⟨l, hl', hmem⟩ := hl.queued p (hsched.holding 0 p hp)
    rw [hl'.unique (hI.placed.queue 0)] at hmem
    have hplace := hsched.once (.queue 0) (.scheduler 0) p hmem hp
    cases hplace
  · intro hno
    refine ⟨fun p _ => ?_, fun p hp => ?_⟩
    · rw [hproc p]
      rfl
    · rcases hsched.runnable p hp with ⟨q, hlt, hmem⟩ | ⟨c, hc⟩ | htaken
      · -- the only queue that is not empty is queue 0
        have hlist := (hq.lists.queue ⟨q, hlt⟩).unique (hI.placed.queue q)
        rw [← hlist] at hmem
        unfold boostedLists at hmem
        split at hmem
        · rename_i h0
          have hq0 : q = 0 := congrArg Fin.val h0
          subst hq0
          exact ⟨_, hq.lists.queue 0, hmem⟩
        · cases hmem
      · rw [Subsingleton.elim c 0] at hc
        exact absurd hc (hno p)
      · rw [hb] at htaken
        cases htaken

/-- A process that is charged after the boost is demoted. -/
theorem chargeTick_demotes (hb : s.boost = .off) (hc : s.cpu 0 = .running p)
    (hproc : s.proc p = (s.proc p).raise) :
    ∃ s', s.chargeTick p = some s' ∧ (s'.proc p).priority = 1 ∧
      (s'.proc p).state = .runnable := by
  have htick : s.step (.on 0 .tick) = some (s.setProc p (s.proc p).tick) := by
    rw [step_of_off hb]
    simp only [State.perform, State.byRunning, hc]
  have hyield : (s.setProc p (s.proc p).tick).step (.on 0 .yield) = some
      (((s.setProc p (s.proc p).tick).makeRunnable
        ((s.setProc p (s.proc p).tick).proc p).priority p).setCpu 0 (.looking 0)) := by
    rw [step_of_off (s := s.setProc p (s.proc p).tick) hb]
    simp only [State.perform, State.byRunning, State.setProc, hc]
  have hslice : timeSlice.getD (s.proc p).priority 0 ≤ (s.proc p).ticksUsed + 1 := by
    rw [hproc]
    exact Nat.le_refl 1
  have hcharge : s.chargeTick p = (s.setProc p (s.proc p).tick).step (.on 0 .yield) := by
    rw [State.chargeTick, htick]
    exact if_pos (.inl hslice)
  have hpr : (s.proc p).tick.priority = 1 := by
    rw [hproc]
    rfl
  refine ⟨_, hcharge.trans hyield, ?_, ?_⟩
  · simp [State.setCpu, State.makeRunnable, State.enqueue, State.setProc, hpr]
  · simp [State.setCpu, State.makeRunnable, State.enqueue, State.setProc]

/-- **After the timer interrupt of a boost every live process is at priority 0 and every runnable
    one in queue 0 iff the interrupt has found no process**, neither running nor taken by the
    scheduler, or one that is killed and on its way to exit. -/
theorem lifted_iff (h : Reachable State.step State.init s) (hb : s.boost = .off)
    (h48 : (s.ticks + 1) % 2 ^ 32 % 48 = 0) (ht : trap = .user → ∃ p, s.cpu 0 = .running p)
    (chan : ℕ) :
    ∃ s', s.timerInterrupt chan trap = some s' ∧
      (Lifted s' ↔ (∃ q, s.cpu 0 = .looking q) ∨
        trap = .user ∧ ∃ p, s.cpu 0 = .running p ∧ (s.proc p).killed = true) := by
  obtain ⟨t, L, hclock, htb, hq, hcpu, hproc, hkilled⟩ := exists_clockintr h hb h48 chan
  have hlift := lifted_iff_not_holding (reachable_clockintr h hclock) htb hq hproc
  have hstart : s.timerInterrupt chan trap = (match t.cpu 0 with
      | .running p => if trap = .user ∧ (t.proc p).killed then some t else t.chargeTick p
      | _ => if trap = .user then none else some t) := by
    rw [State.timerInterrupt, hclock]
    rfl
  rw [hstart, hcpu]
  rw [hcpu] at hlift
  have hkernel (hno : ∀ p, s.cpu 0 ≠ .running p) : trap ≠ .user := by
    intro htr
    obtain ⟨p, hp⟩ := ht htr
    exact hno p hp
  rcases hc : s.cpu 0 with q | p | p
  · -- the scheduler looks for a process
    have htrap := hkernel (by simp [hc])
    refine ⟨t, if_neg htrap, iff_of_true (hlift.2 fun p => ?_) (.inl ⟨q, rfl⟩)⟩
    rw [hc]
    intro hp
    cases hp
  · -- the scheduler holds a process that is in no queue
    have htrap := hkernel (by simp [hc])
    refine ⟨t, if_neg htrap, iff_of_false (fun hl => hlift.1 hl p hc) ?_⟩
    rintro (⟨q, hq⟩ | ⟨htr, -⟩)
    · cases hq
    · exact htrap htr
  · by_cases hkill : trap = .user ∧ (s.proc p).killed = true
    · refine ⟨t, if_pos ⟨hkill.1, by rw [hkilled]; exact hkill.2⟩, iff_of_true (hlift.2 fun p' => ?_)
        (.inr ⟨hkill.1, p, rfl, hkill.2⟩)⟩
      rw [hc]
      intro hp
      cases hp
    · obtain ⟨s', hs', hpr, hst⟩ := chargeTick_demotes htb (p := p) (by rw [hcpu, hc]) (hproc p)
      refine ⟨s', ?_, iff_of_false (fun hl => ?_) ?_⟩
      · show (if trap = .user ∧ (t.proc p).killed = true then _ else _) = _
        rw [hkilled, if_neg hkill]
        exact hs'
      · have h0 := hl.priority p (by rw [hst]; decide)
        rw [hpr] at h0
        cases h0
      · rintro (⟨q, hq⟩ | ⟨htr, p', hp', hk⟩)
        · cases hq
        · cases hp'
          exact hkill ⟨htr, hk⟩

/-- The first process waits in queue 0, and the interrupt comes before it is taken. -/
theorem lifted_iff_idle :
    ∃ s s' : State 1, run State.step (.on 0 .userinit :: List.replicate 47 (.on 0 .clock))
        State.init = some s ∧ s.timerInterrupt 1 .kernel = some s' ∧ Lifted s' := by
  have hidle : ∃ s : State 1, run State.step (.on 0 .userinit :: List.replicate 47 (.on 0 .clock))
      State.init = some s ∧ s.boost = .off ∧ (s.ticks + 1) % 2 ^ 32 % 48 = 0 ∧
      s.cpu 0 = .looking 0 := ⟨_, rfl, rfl, rfl, rfl⟩
  obtain ⟨s, hs, hb, h48, hc⟩ := hidle
  obtain ⟨s', hs', hl⟩ : ∃ s', s.timerInterrupt 1 .kernel = some s' ∧ (Lifted s' ↔ _) :=
    lifted_iff (.of_run _ hs) hb h48 (fun ht => absurd ht (by decide)) 1
  exact ⟨s, s', hs, hs', hl.2 (.inl ⟨0, hc⟩)⟩

/-- The first process sleeps during 47 ticks and is woken up by a device before the next one. -/
def lateWakeup : List (Act 1) :=
  [.on 0 .userinit, .on 0 .deque, .on 0 .dispatch, .on 0 (.sleepPrepare 2), .on 0 .sleep] ++
    List.replicate 47 (.on 0 .clock) ++ [.on 0 (.wakeup 2 0), .on 0 .deque, .on 0 .dispatch]

theorem boost_demotes_running :
    ∃ s s' : State 1, run State.step lateWakeup State.init = some s ∧
      (s.ticks + 1) % 2 ^ 32 % 48 = 0 ∧ s.timerInterrupt 1 .user = some s' ∧
      s'.boost = .off ∧ ¬Lifted s' := by
  refine ⟨_, _, rfl, rfl, rfl, rfl, fun h => ?_⟩
  exact absurd (h.priority 0 (by decide)) (by decide)

end Xv6
