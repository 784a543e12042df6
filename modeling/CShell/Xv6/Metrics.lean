/-
  xv6 formalization — the metrics of a process add up (`proc.c`, `trap.c`).

  A tick counts once for a process: `update_waiting_ticks` counts it if the
  process is `RUNNABLE`, the trap handler if it was interrupted.  In the middle
  of an interrupt a process may still have the tick to come (`Uni.due`), and
  the ticks it has run or waited and this one together are not more than those
  since its arrival (`Adds`).

  `metrics_add_up`: in every run on one CPU in which the tick counter stays in
  the range of an `int`, the counters of every live process add up, and so do
  the numbers of every `METRIC` line.
-/
import CShell.Xv6.Uniproc

namespace Xv6

open Lib

/-- The next tick still fits in the `int` fields that `ticks` is copied to. -/
def NoWrap (u : Uni) (op : UniOp) : Prop := op = .clock → u.ticks + 1 < 2 ^ 31

instance (u : Uni) (op : UniOp) : Decidable (NoWrap u op) :=
  inferInstanceAs (Decidable (op = .clock → u.ticks + 1 < 2 ^ 31))

/-- The ticks of the interrupt that may still be counted for `p`. -/
def Uni.due (u : Uni) (p : Slot) : ℤ :=
  match u.intr with
  | .off => 0
  | .waking => 1
  | .counting i => if i ≤ p ∨ u.running = some p then 1 else 0
  | .charging => if u.running = some p then 1 else 0

/-- The counters of a process add up to at most the ticks since its arrival. -/
structure Adds (ticks : ℕ) (due : ℤ) (ran : Bool) (t : Times) : Prop where
  arrival : 0 ≤ t.arrivalTick
  rtime : 0 ≤ t.rtime
  waiting : 0 ≤ t.waitingTicks
  total : t.rtime + t.waitingTicks + due ≤ ticks - t.arrivalTick
  first : if ran then t.arrivalTick ≤ t.firstRunTick ∧ t.firstRunTick ≤ ticks
    else t.firstRunTick = -1

/-- The times in a line that was printed add up. -/
def Metric.AddsUp (m : Metric) : Prop :=
  0 ≤ m.response ∧ m.response ≤ m.turnaround ∧ m.waiting ≤ m.turnaround

/-- The invariant of the counters. -/
structure Counted (u : Uni) : Prop where
  ticks : u.ticks < 2 ^ 31
  live : ∀ p, (u.proc p).state ≠ .unused → Adds u.ticks (u.due p) (u.ran p) (u.times p)
  printed : ∀ m ∈ u.printed, m.AddsUp

variable {u u' : Uni} {op : UniOp} {t t' : Times} {p : Slot} {ticks : ℕ} {ran : Bool} {due : ℤ}

/-! ## One process -/

theorem Adds.same (h : Adds ticks due ran t) (hs : t.Same t') : Adds ticks due ran t' where
  arrival := by rw [hs.arrivalTick]; exact h.arrival
  rtime := by rw [hs.rtime]; exact h.rtime
  waiting := by rw [hs.waitingTicks]; exact h.waiting
  total := by rw [hs.rtime, hs.waitingTicks, hs.arrivalTick]; exact h.total
  first := by rw [hs.arrivalTick, hs.firstRunTick]; exact h.first

theorem Adds.mono (h : Adds ticks due ran t) {due' : ℤ} (hd : due' ≤ due) :
    Adds ticks due' ran t where
  arrival := h.arrival
  rtime := h.rtime
  waiting := h.waiting
  total := by have := h.total; omega
  first := h.first

theorem Adds.alloc (hticks : ticks < 2 ^ 31) :
    Adds ticks 0 false ⟨0, toInt32 ticks, -1, -1, 0⟩ := by
  have harrival : toInt32 ticks = ticks := toInt32_eq_self (by omega) (by omega)
  rw [harrival]
  constructor
  · exact Int.natCast_nonneg ticks
  · exact Int.le_refl 0
  · exact Int.le_refl 0
  · simp
  · rfl

theorem Adds.dispatch (hticks : ticks < 2 ^ 31) (h : Adds ticks 0 ran t) :
    Adds ticks 0 true (if t.firstRunTick = -1 then { t with firstRunTick := toInt32 ticks } else t) := by
  obtain ⟨harrival, hrtime, hwaiting, htotal, hfirst⟩ := h
  have hnow : toInt32 ticks = ticks := toInt32_eq_self (by omega) (by omega)
  rw [hnow]
  cases ran with
  | false =>
    have hnew : t.firstRunTick = -1 := hfirst
    rw [if_pos hnew]
    refine ⟨harrival, hrtime, hwaiting, htotal, ?_⟩
    simp only [if_true]
    omega
  | true =>
    simp only [if_true] at hfirst
    rw [if_neg (by omega)]
    exact ⟨harrival, hrtime, hwaiting, htotal, hfirst⟩

/-- A clock tick is due for every process. -/
theorem Adds.clock (h : Adds ticks 0 ran t) : Adds (ticks + 1) 1 ran t := by
  obtain ⟨harrival, hrtime, hwaiting, htotal, hfirst⟩ := h
  refine ⟨harrival, hrtime, hwaiting, by push_cast; omega, ?_⟩
  cases ran with
  | false => exact hfirst
  | true =>
    simp only [if_true] at hfirst ⊢
    push_cast
    omega

theorem Adds.count (hticks : ticks < 2 ^ 31) (h : Adds ticks 1 ran t) :
    Adds ticks 0 ran { t with waitingTicks := toInt32 (t.waitingTicks + 1) } := by
  obtain ⟨harrival, hrtime, hwaiting, htotal, hfirst⟩ := h
  have hnow : toInt32 (t.waitingTicks + 1) = t.waitingTicks + 1 :=
    toInt32_eq_self (by omega) (by omega)
  rw [hnow]
  refine ⟨harrival, hrtime, ?_, ?_, hfirst⟩
  · simp only
    omega
  · simp only
    omega

theorem Adds.charge (hticks : ticks < 2 ^ 31) (h : Adds ticks 1 ran t) :
    Adds ticks 0 ran { t with rtime := toInt32 (t.rtime + 1) } := by
  obtain ⟨harrival, hrtime, hwaiting, htotal, hfirst⟩ := h
  have hnow : toInt32 (t.rtime + 1) = t.rtime + 1 := toInt32_eq_self (by omega) (by omega)
  rw [hnow]
  refine ⟨harrival, ?_, hwaiting, ?_, hfirst⟩
  · simp only
    omega
  · simp only
    omega

/-- The line printed by a process whose counters add up. -/
theorem Adds.metric (hticks : ticks < 2 ^ 31) (h : Adds ticks 0 true t) (pid : ℕ) :
    (Times.metric pid { t with completionTick := toInt32 ticks }).AddsUp := by
  obtain ⟨harrival, hrtime, hwaiting, htotal, hfirst⟩ := h
  simp only [if_true] at hfirst
  have hnow : toInt32 ticks = ticks := toInt32_eq_self (by omega) (by omega)
  have hturn : toInt32 (ticks - t.arrivalTick) = ticks - t.arrivalTick :=
    toInt32_eq_self (by omega) (by omega)
  have hresp : toInt32 (t.firstRunTick - t.arrivalTick) = t.firstRunTick - t.arrivalTick :=
    toInt32_eq_self (by omega) (by omega)
  simp only [Metric.AddsUp, Times.metric, hnow, hturn, hresp]
  omega

/-! ## Every step -/

theorem Becomes.adds (h : Counted u) (hoff : u.intr = .off) (hb : Becomes u op u' p)
    (hp : (u'.proc p).state ≠ .unused) : Adds u.ticks 0 (u'.ran p) (u'.times p) := by
  have hdue : u.due p = 0 := by rw [Uni.due, hoff]
  have hlive := h.live p
  rw [hdue] at hlive
  cases hb with
  | free hu => exact absurd hu hp
  | stays hgoes _ hran hsame =>
    rw [hran]
    exact (hlive (hgoes.live hp)).same hsame
  | dispatched _ hst hu' =>
    have hrun : u'.ran p = true := by simp [hu', Uni.dispatch]
    have htimes : u'.times p = if (u.times p).firstRunTick = -1
        then { u.times p with firstRunTick := toInt32 u.ticks } else u.times p := by
      simp [hu', Uni.dispatch]
    rw [hrun, htimes]
    refine (hlive ?_).dispatch h.ticks
    rw [hst]
    intro hu
    cases hu
  | allocated _ _ _ _ _ hran htimes =>
    rw [hran, htimes]
    exact Adds.alloc h.ticks

/-- A step prints a line only in `kexit`. -/
theorem Moves.printed (hm : Moves u op u') (m : Metric) (hmem : m ∈ u'.printed) :
    m ∈ u.printed ∨ ∃ p, u.running = some p ∧
      m = Times.metric (u.proc p).pid { u.times p with completionTick := toInt32 u.ticks } := by
  cases hm with
  | @kexit p hr _ _ =>
    rcases List.mem_append.1 hmem with hold | hnew
    · exact Or.inl hold
    · exact Or.inr ⟨p, hr, List.mem_singleton.1 hnew⟩
  | _ => exact Or.inl hmem

theorem Counted.moves (h : Counted u) (hwf : u.Wf) (hoff : u.intr = .off) (hm : Moves u op u') :
    Counted u' := by
  obtain ⟨hintr, hticks⟩ := hm.intr_ticks
  refine ⟨hticks ▸ h.ticks, fun p hp => ?_, fun m hmem => ?_⟩
  · have hdue : u'.due p = 0 := by rw [Uni.due, hintr, hoff]
    rw [hdue, hticks]
    exact (hm.becomes hwf p).adds h hoff hp
  · rcases hm.printed m hmem with hold | ⟨p, hr, rfl⟩
    · exact h.printed m hold
    · obtain ⟨hst, hran⟩ := hwf.running p hr
      have hdue : u.due p = 0 := by rw [Uni.due, hoff]
      have hadds := h.live p (by rw [hst]; intro hu; cases hu)
      rw [hdue, hran] at hadds
      exact hadds.metric h.ticks _

theorem Counted.wakes (h : Counted u) (hm : Wakes u op u') : Counted u' := by
  obtain ⟨proc, rfl, hgoes⟩ := hm.goes
  exact ⟨h.ticks, fun p hp => h.live p ((hgoes p).1.live hp), h.printed⟩

/-- After slot `i` the tick is due for the processes behind it and the one interrupted. -/
theorem due_after {i : Slot} (hi : u.intr = .after i) (p : Slot) :
    u.due p = if i < p ∨ u.running = some p then 1 else 0 := by
  by_cases hlt : i.val + 1 < nproc
  · rw [Uni.due, hi, Intr.after, dif_pos hlt]
    simp only [Fin.le_def, Fin.lt_def, Nat.succ_le_iff]
  · rw [Uni.due, hi, Intr.after, dif_neg hlt]
    have hlast : ¬i < p := by
      rw [Fin.lt_def]
      have := p.isLt
      omega
    simp only [hlast, false_or]

/-- One iteration of `update_waiting_ticks`. -/
theorem Counted.count (h : Counted u) (hwf : u.Wf) {i : Slot} (hi : u.intr = .counting i) :
    Counted { u.countWaiting i with intr := .after i } := by
  have hrest : (u.countWaiting i).ticks = u.ticks ∧ (u.countWaiting i).proc = u.proc ∧
      (u.countWaiting i).ran = u.ran ∧ (u.countWaiting i).running = u.running ∧
      (u.countWaiting i).printed = u.printed := by
    unfold Uni.countWaiting
    split <;> exact ⟨rfl, rfl, rfl, rfl, rfl⟩
  obtain ⟨hticks, hproc, hran, hrunning, hprinted⟩ := hrest
  refine ⟨hticks ▸ h.ticks, fun p hp => ?_, hprinted ▸ h.printed⟩
  have hadds := h.live p (hproc ▸ hp)
  rw [due_after (u := { u.countWaiting i with intr := .after i }) rfl p]
  simp only [hticks, hran, hrunning]
  by_cases hcounted : (u.proc i).state = .runnable ∧ p = i
  · -- the process waits, so it is not the one that was interrupted
    obtain ⟨hst, rfl⟩ := hcounted
    have hnot : u.running ≠ some p := hwf.not_running (by rw [hst]; intro hr; cases hr)
    have hdue : u.due p = 1 := by
      rw [Uni.due, hi]
      exact if_pos (Or.inl (Fin.le_refl p))
    rw [hdue] at hadds
    rw [if_neg (by simp [hnot]), Uni.countWaiting, if_pos hst]
    simp only [Uni.setTimes_times, Function.update_self]
    exact hadds.count h.ticks
  · have htimes : (u.countWaiting i).times p = u.times p := by
      unfold Uni.countWaiting
      split
      · rename_i hst
        exact Function.update_of_ne (fun hpi => hcounted ⟨hst, hpi⟩) ..
      · rfl
    rw [htimes]
    refine hadds.mono ?_
    rw [Uni.due, hi]
    simp only
    by_cases hbehind : i < p ∨ u.running = some p
    · have hle : i ≤ p ∨ u.running = some p := hbehind.imp_left Fin.le_of_lt
      simp only [if_pos hbehind, if_pos hle, Int.le_refl]
    · rw [if_neg hbehind]
      split <;> decide

theorem Counted.charge (h : Counted u) (hi : u.intr = .charging) (hr : u.running = some p) :
    Counted { u.charge p with intr := .off } := by
  refine ⟨h.ticks, fun q hq => ?_, h.printed⟩
  have hadds := h.live q hq
  rw [Uni.due, hi] at hadds
  by_cases hqp : q = p
  · subst hqp
    simp only [hr, if_true] at hadds
    simp only [Uni.charge, Uni.setTimes, Function.update_self]
    exact hadds.charge h.ticks
  · simp only [Uni.charge, Uni.setTimes, Function.update_of_ne hqp]
    refine hadds.mono ?_
    simp only [Uni.due]
    split <;> decide

theorem Counted.tick (h : Counted u) (hwf : u.Wf) (hw : NoWrap u op) (hm : Ticks u op u') :
    Counted u' := by
  cases hm with
  | clock hoff =>
    have hlt := hw rfl
    have hticks : (u.ticks + 1) % 2 ^ 32 = u.ticks + 1 := Nat.mod_eq_of_lt (by omega)
    simp only [hticks]
    refine ⟨hlt, fun p hp => ?_, h.printed⟩
    have hdue : u.due p = 0 := by rw [Uni.due, hoff]
    have hadds := h.live p hp
    rw [hdue] at hadds
    exact hadds.clock
  | start hwaking =>
    refine ⟨h.ticks, fun p hp => (h.live p hp).mono ?_, h.printed⟩
    rw [Uni.due, Uni.due, hwaking]
    simp only
    split <;> decide
  | count hcounting => exact h.count hwf hcounting
  | charge hcharging hr => exact h.charge hcharging hr
  | spare hcharging =>
    refine ⟨h.ticks, fun p hp => (h.live p hp).mono ?_, h.printed⟩
    rw [Uni.due, Uni.due, hcharging]
    simp only
    split <;> decide

theorem counted_of_reach (h : Reach Uni.step NoWrap Uni.init u) : Counted u ∧ u.Wf := by
  refine h.invariant (P := fun u => Counted u ∧ u.Wf) ⟨⟨by decide, ?_, nofun⟩, ?_⟩ ?_
  · intro p hp
    exact absurd rfl hp
  · exact wf_of_reach (G := NoWrap) .start
  · rintro u op u' ⟨hu, hwf⟩ hw hs
    obtain ⟨hoff, hm⟩ | hm | hm := moves_of_step hs
    · exact ⟨hu.moves hwf hoff hm, hwf.moves hm⟩
    · exact ⟨hu.wakes hm, hwf.wakes hm⟩
    · exact ⟨hu.tick hwf hw hm, hwf.ticks hm⟩

/-- **The metrics add up.**  In every state reached while the tick counter fits in an `int`, the
    ticks a live process has run and waited are not more than those since its arrival, and its
    first run lies between its arrival and now; and every line that `kexit` has printed has a
    response time that is not negative and not more than the turnaround time, and a waiting
    time that is not more than the turnaround time. -/
theorem metrics_add_up (h : Reach Uni.step NoWrap Uni.init u) :
    (∀ p, (u.proc p).state ≠ .unused →
      (u.times p).rtime + (u.times p).waitingTicks ≤ u.ticks - (u.times p).arrivalTick ∧
      (u.ran p = true → (u.times p).arrivalTick ≤ (u.times p).firstRunTick ∧
        (u.times p).firstRunTick ≤ u.ticks)) ∧
    ∀ m ∈ u.printed, 0 ≤ m.response ∧ m.response ≤ m.turnaround ∧ m.waiting ≤ m.turnaround := by
  obtain ⟨hu, -⟩ := counted_of_reach h
  refine ⟨fun p hp => ?_, hu.printed⟩
  obtain ⟨-, -, -, htotal, hfirst⟩ := hu.live p hp
  have hdue : 0 ≤ u.due p := by
    unfold Uni.due
    split
    · decide
    · decide
    · split <;> decide
    · split <;> decide
  refine ⟨by omega, fun hran => ?_⟩
  rw [if_pos hran] at hfirst
  exact hfirst

/-- A timer interrupt: a tick, `update_waiting_ticks` over the table, and the charge. -/
def wholeTick : List UniOp := .clock :: List.replicate 65 .update ++ [.charge true]

/-- The first process forks a child, which waits for a tick, runs for one and exits. -/
def exitRun : List UniOp :=
  [.userinit, .dispatch 0, .alloc 1 true, .setParent, .forkDone] ++ wholeTick ++
    [.yield, .dispatch 1] ++ wholeTick ++ [.kexit]

theorem metrics_add_up_exit : ∃ u, Reach Uni.step NoWrap Uni.init u ∧
    u.ticks = 2 ∧ u.printed = [⟨2, 0, 1, 2, 1, 2, 1⟩] ∧ (u.proc 0).state = .runnable ∧
    (u.times 0).rtime + (u.times 0).waitingTicks ≤ u.ticks - (u.times 0).arrivalTick ∧
    ∀ m ∈ u.printed, 0 ≤ m.response ∧ m.response ≤ m.turnaround ∧ m.waiting ≤ m.turnaround := by
  have hfacts : (Lib.run (guarded Uni.step NoWrap) exitRun Uni.init).map
      (fun u => (u.ticks, u.printed, (u.proc 0).state)) =
        some (2, [⟨2, 0, 1, 2, 1, 2, 1⟩], .runnable) := by decide +kernel
  obtain ⟨u, hu, hfacts⟩ := Option.map_eq_some_iff.1 hfacts
  simp only [Prod.mk.injEq] at hfacts
  obtain ⟨hticks, hprinted, hstate⟩ := hfacts
  have hreach := Reach.of_run exitRun hu
  obtain ⟨hlive, hlines⟩ := metrics_add_up hreach
  have hused : (u.proc 0).state ≠ .unused := by
    rw [hstate]
    decide
  exact ⟨u, hreach, hticks, hprinted, hstate, (hlive 0 hused).1, hlines⟩

end Xv6
