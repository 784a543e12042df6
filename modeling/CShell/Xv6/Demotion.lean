/-
  xv6 formalization — demotion depends on the CPU time charged only.

  The level of a process is its priority and the ticks it has used there.
  Ticks are counted beside the kernel's state (`State.count`): those charged to
  each process since `allocproc` or `mlfq_boost` has last reset it.

  * `Kept`: what a step that neither resets nor charges a process leaves as it
    is (`levelled_step` says of every step which it does);
  * `level_eq_demotion`: the level of a live process is a function of the ticks
    counted for it, whatever yields, sleeps, wakeups and preemptions there were.
-/
import CShell.Xv6.Queues

namespace Xv6

open Lib

variable {ncpu : ℕ} {s s' : State ncpu} {p : Slot} {c : Fin ncpu}

/-! ## Levels -/

/-- `(priority, ticks_used)` -/
def Proc.level (x : Proc) : ℕ × ℕ := (x.priority, x.ticksUsed)

/-- The slot is in use. -/
def Proc.Live (x : Proc) : Prop := x.state ≠ .unused

/-- The level after `n` ticks: one tick in queue 0, four in queue 1, eight in
    queue 2, and then slices of sixteen in queue 3. -/
def demotion (n : ℕ) : ℕ × ℕ :=
  if n = 0 then (0, 0)
  else if n < 5 then (1, n - 1)
  else if n < 13 then (2, n - 5)
  else (3, (n - 13) % 16)

theorem demotion_one {n : ℕ} (h₁ : 1 ≤ n) (h₂ : n < 5) : demotion n = (1, n - 1) := by
  rw [demotion, if_neg (by omega), if_pos h₂]

theorem demotion_two {n : ℕ} (h₁ : 5 ≤ n) (h₂ : n < 13) : demotion n = (2, n - 5) := by
  rw [demotion, if_neg (by omega), if_neg (by omega), if_pos h₂]

theorem demotion_three {n : ℕ} (h : 13 ≤ n) : demotion n = (3, (n - 13) % 16) := by
  rw [demotion, if_neg (by omega), if_neg (by omega), if_neg (by omega)]

/-- A tick within the slice, and the one that ends it. -/
theorem Proc.level_tick {x : Proc} {k t slice : ℕ} (h : x.level = (k, t))
    (hk : timeSlice.getD k 0 = slice) :
    x.tick.level = if slice ≤ t + 1 then (if k < 3 then k + 1 else k, 0) else (k, t + 1) := by
  obtain ⟨rfl, rfl⟩ := Prod.mk.inj h
  rw [tick, hk]
  split <;> rfl

/-- **One tick.** -/
theorem Proc.level_tick_of_demotion {x : Proc} {n : ℕ} (h : x.level = demotion n) :
    x.tick.level = demotion (n + 1) := by
  by_cases h₁ : n < 1
  · obtain rfl : n = 0 := by omega
    rw [level_tick h rfl]
    rfl
  by_cases h₅ : n < 5
  · rw [demotion_one (by omega) h₅] at h
    rw [level_tick h (show _ = 4 from rfl)]
    by_cases h₄ : n = 4
    · subst h₄
      rfl
    · rw [if_neg (by omega), demotion_one (by omega) (by omega)]
      congr 1
      omega
  by_cases h₁₃ : n < 13
  · rw [demotion_two (by omega) h₁₃] at h
    rw [level_tick h (show _ = 8 from rfl)]
    by_cases h₁₂ : n = 12
    · subst h₁₂
      rfl
    · rw [if_neg (by omega), demotion_two (by omega) (by omega)]
      congr 1
      omega
  · -- the last level starts again after each slice
    rw [demotion_three (by omega)] at h
    rw [level_tick h (show _ = 16 from rfl), demotion_three (by omega)]
    by_cases h₁₅ : (n - 13) % 16 = 15
    · rw [if_pos (by omega), if_neg (by omega)]
      congr 1
      omega
    · rw [if_neg (by omega)]
      congr 1
      omega

/-! ## Counting -/

/-- The step resets the process: `allocproc`, or `mlfq_boost` at this process. -/
def State.resets (s : State ncpu) (a : Act ncpu) (p : Slot) : Bool :=
  match a with
  | .on _ .userinit => p = 0
  | .on _ (.alloc np _) => p = np
  | .boost =>
    match s.boost with
    | .took _ p' => p = p' && (s.proc p').state = .runnable
    | .sweep i => p = i
    | _ => false
  | _ => false

/-- The step charges a tick to the process. -/
def State.charges (s : State ncpu) (a : Act ncpu) (p : Slot) : Bool :=
  match a with
  | .on c .tick => s.cpu c = .running p
  | _ => false

/-- The ticks charged to each process since its last reset, after the step. -/
def State.count (s : State ncpu) (a : Act ncpu) (n : Slot → ℕ) : Slot → ℕ := fun p =>
  if s.resets a p then 0 else if s.charges a p then n p + 1 else n p

/-- A step, with the count. -/
def countStep (x : State ncpu × (Slot → ℕ)) (a : Act ncpu) : Option (State ncpu × (Slot → ℕ)) :=
  (x.1.step a).map fun s' => (s', x.1.count a x.2)

/-! ## Steps that keep the levels -/

/-- A process that is live after the step was live before, at the same level. -/
def Kept (x y : Proc) : Prop := y.Live → x.Live ∧ y.level = x.level

theorem Kept.refl (x : Proc) : Kept x x := fun h => ⟨h, rfl⟩

theorem Kept.trans {x y z : Proc} (h₁ : Kept x y) (h₂ : Kept y z) : Kept x z := by
  intro hz
  obtain ⟨hy, hl⟩ := h₂ hz
  obtain ⟨hx, hl'⟩ := h₁ hy
  exact ⟨hx, hl.trans hl'⟩

/-- One process changes. -/
theorem kept_setProc {x : Proc} (h : Kept (s.proc p) x) (i : Slot) :
    Kept (s.proc i) ((s.setProc p x).proc i) := by
  unfold State.setProc
  by_cases hi : i = p
  · subst hi
    simpa using h
  · simpa [Function.update_of_ne hi] using Kept.refl _

/-- A process changes within its state and level. -/
theorem Kept.of_eq {x y : Proc} (hs : y.state = x.state) (hl : y.level = x.level) : Kept x y :=
  fun h => ⟨fun hx => h (hs.trans hx), hl⟩

/-- A live process changes its state. -/
theorem Kept.of_live {x y : Proc} (hx : x.Live) (hl : y.level = x.level) : Kept x y :=
  fun _ => ⟨hx, hl⟩

theorem kept_makeRunnable (q : ℕ) (h : (s.proc p).Live) (i : Slot) :
    Kept (s.proc i) ((s.makeRunnable q p).proc i) :=
  kept_setProc (x := { s.proc p with state := .runnable }) (.of_live h rfl) i

theorem kept_freeproc (i : Slot) : Kept (s.proc i) ((s.freeproc p).proc i) := by
  refine kept_setProc ?_ i
  intro h
  exact absurd rfl h

theorem kept_reparent (i : Slot) : Kept (s.proc i) ((s.reparent p).proc i) := by
  unfold State.reparent
  simp only
  split
  · exact .of_eq rfl rfl
  · exact .refl _

/-- `allocproc` resets the process; the others are not concerned. -/
theorem level_allocproc : ((s.allocproc p).proc p).level = (0, 0) := by
  simp [State.allocproc, State.setProc, Proc.level]

theorem kept_allocproc {i : Slot} (hi : i ≠ p) : Kept (s.proc i) ((s.allocproc p).proc i) := by
  refine .of_eq ?_ ?_ <;> simp [State.allocproc, State.setProc, Function.update_of_ne hi]

theorem proc_deque {q : ℕ} (h : s.deque q = some (p, s')) : s'.proc = s.proc := by
  unfold State.deque at h
  split at h
  · cases h
  · cases h
    rfl

/-! ## One step -/

/-- What a step does to the level of a process that is live after it. -/
def Levelled (reset charged : Bool) (x y : Proc) : Prop :=
  y.Live → if reset then y.level = (0, 0)
    else x.Live ∧ y.level = (if charged then x.tick else x).level

theorem Kept.levelled {x y : Proc} (h : Kept x y) : Levelled false false x y := h

theorem levelled_reset {x y : Proc} (h : y.level = (0, 0)) : Levelled true false x y := fun _ => h

/-- What follows `allocproc` in `kfork` keeps its level, or frees the process again. -/
theorem levelled_allocproc {np i : Slot} {ok : Bool}
    (h : Kept ((s.allocproc np).proc i) (s'.proc i)) :
    Levelled (s.resets (.on c (.alloc np ok)) i) false (s.proc i) (s'.proc i) := by
  by_cases hi : i = np
  · subst hi
    rw [show s.resets (.on c (.alloc i ok)) i = true from decide_eq_true rfl]
    intro hlive
    exact (h hlive).2.trans level_allocproc
  · rw [show s.resets (.on c (.alloc np ok)) i = false from decide_eq_false hi]
    exact ((kept_allocproc hi).trans h).levelled

theorem Marks.kept {op : Op} {x : Proc} (hm : Marks s op p x) : Kept (s.proc p) x := by
  cases hm <;> exact .of_eq rfl rfl

/-- A mark neither resets nor charges. -/
theorem Marks.levelled {op : Op} {i : Slot} {x y : Proc} (hm : Marks s op p x)
    (h : Kept (s.proc i) y) :
    Levelled (s.resets (.on c op) i) (s.charges (.on c op) i) (s.proc i) y := by
  cases hm <;> exact h

theorem live_reparent (h : (s.proc p).Live) : ((s.reparent p).proc p).Live := by
  unfold State.reparent
  simp only
  split <;> exact h

section
variable {W : Slot → Prop} {L : ℕ → List Slot} {loc : Slot → Option (Place ncpu)}

/-- The process that runs on a CPU is live. -/
theorem Inv.live (hI : Inv W s L loc) (hc : s.cpu c = .running p) : (s.proc p).Live := by
  intro h
  rw [(hI.running hc).2] at h
  cases h

/-- The child of a pending fork is live, also when the fork is over. -/
theorem Inv.live_child (hI : Inv W s L loc) {np : Slot} {f : Fork}
    (hf : (s.proc p).fork.child = some np) :
    ((s.setProc p { s.proc p with fork := f }).proc np).Live := by
  have hused := (hI.forks.child p np hf).1
  unfold State.setProc Proc.Live
  by_cases hnp : np = p
  · subst hnp
    simp [hused]
  · simp [Function.update_of_ne hnp, hused]

/-- **A step of a CPU** resets the level of a process, charges a tick to it, or keeps it. -/
theorem Inv.levelled_perform (hI : Inv W s L loc) {op : Op} (hs : s.perform c op = some s')
    (i : Slot) :
    Levelled (s.resets (.on c op) i) (s.charges (.on c op) i) (s.proc i) (s'.proc i) := by
  cases performs_of_perform hs with
  | userinit _ _ =>
    by_cases hi : i = 0
    · subst hi
      refine levelled_reset ?_
      simp [State.makeRunnable, State.enqueue, State.allocproc, State.setProc, Proc.level]
    · rw [show s.resets (.on c .userinit) i = false from decide_eq_false hi]
      refine Kept.levelled (.trans (kept_allocproc hi) (kept_setProc ?_ i))
      refine .of_live ?_ rfl
      simp [State.allocproc, State.setProc, Proc.Live]
  | @alloc p np hc _ _ =>
    refine levelled_allocproc ?_
    refine kept_setProc ?_ i
    exact .of_eq rfl rfl
  | allocFailed _ _ _ => exact levelled_allocproc (kept_freeproc i)
  | @tick p hc =>
    by_cases hi : i = p
    · subst hi
      rw [show s.charges (.on c .tick) i = true from decide_eq_true hc]
      intro _
      refine ⟨hI.live hc, ?_⟩
      simp [State.setProc]
    · have hne : s.cpu c ≠ .running i := by
        rw [hc]
        intro h
        exact hi (Cpu.running.inj h).symm
      rw [show s.charges (.on c .tick) i = false from decide_eq_false hne]
      refine Kept.levelled (.of_eq ?_ ?_) <;> simp [State.setProc, Function.update_of_ne hi]
  | @took q p s₁ _ hd =>
    have hp : s₁.proc = s.proc := proc_deque hd
    show Kept (s.proc i) (s₁.proc i)
    rw [hp]
    exact .refl _
  | @dispatch p _ hst =>
    refine kept_setProc ?_ i
    refine .of_live ?_ rfl
    intro h
    rw [hst] at h
    cases h
  | @yield p hc => exact kept_makeRunnable (s.proc p).priority (hI.live hc) i
  | sleepPrepare _ _ =>
    refine kept_setProc ?_ i
    exact .of_eq rfl rfl
  | sleep hc _ =>
    refine kept_setProc ?_ i
    exact .of_live (hI.live hc) rfl
  | kexit hc _ _ =>
    refine Kept.trans (kept_reparent i) (kept_setProc ?_ i)
    exact .of_live (live_reparent (hI.live hc)) rfl
  | setParent _ _ =>
    refine Kept.trans (kept_setProc ?_ i) (kept_setProc ?_ i)
    · exact .of_eq rfl rfl
    · exact .of_eq rfl rfl
  | forkDone _ hf =>
    refine Kept.trans (kept_setProc ?_ i) (kept_makeRunnable 0 ?_ i)
    · exact .of_eq rfl rfl
    · exact hI.live_child (congrArg Fork.child hf)
  | reap _ _ _ =>
    refine Kept.trans (kept_setProc ?_ i) (kept_freeproc i)
    exact .of_eq rfl rfl
  | awake hm _ => exact hm.levelled (kept_setProc hm.kept i)
  | @woken _ p x hm hst =>
    refine hm.levelled (.trans (kept_setProc hm.kept i) (kept_makeRunnable x.priority ?_ i))
    intro h
    have hx : (s.setProc p x).proc p = x := Function.update_self ..
    rw [hx, hm.state, hst] at h
    cases h
  | empty _ _ | dropped _ _ | missed _ _ | clock _ | notChan _ | notPid _ => exact Kept.refl _

/-- `mlfq_boost` resets the process it is at. -/
theorem levelled_raise (i : Slot) : Levelled (decide (i = p)) false (s.proc i)
    ((s.setProc p (s.proc p).raise).proc i) := by
  by_cases hi : i = p
  · subst hi
    rw [decide_eq_true rfl]
    refine levelled_reset ?_
    simp [State.setProc, Proc.raise, Proc.level]
  · rw [decide_eq_false hi]
    refine Kept.levelled (.of_eq ?_ ?_) <;> simp [State.setProc, Function.update_of_ne hi]

theorem levelled_boostStep (hs : s.boostStep = some s') (i : Slot) :
    Levelled (s.resets .boost i) (s.charges .boost i) (s.proc i) (s'.proc i) := by
  have same {t : State ncpu} (hp : t.proc = s.proc) (hr : s.resets .boost i = false) :
      Levelled (s.resets .boost i) (s.charges .boost i) (s.proc i) (t.proc i) := by
    rw [hr, hp]
    exact (Kept.refl _).levelled
  cases boosts_of_boostStep hs with
  | start hb | emptied hb _ | put hb => exact same rfl (by simp only [State.resets, hb])
  | took hb hd =>
    have hp := proc_deque hd
    exact same hp (by simp only [State.resets, hb])
  | @raised q p hb hst =>
    have hr : s.resets .boost i = decide (i = p) := by
      simp only [State.resets, hb, hst, decide_true, Bool.and_true]
    rw [hr]
    exact levelled_raise i
  | skipped hb hst =>
    exact same rfl (by simp only [State.resets, hb, hst, decide_false, Bool.and_false])
  | @swept j hb =>
    have hr : s.resets .boost i = decide (i = j) := by simp only [State.resets, hb]
    rw [hr]
    exact levelled_raise i

/-- **One step** resets the level, charges a tick to it, or keeps it. -/
theorem Inv.levelled_step (hI : Inv W s L loc) {a : Act ncpu} (hs : s.step a = some s')
    (i : Slot) : Levelled (s.resets a i) (s.charges a i) (s.proc i) (s'.proc i) := by
  cases a with
  | on c op =>
    obtain ⟨-, hs⟩ := Option.ite_none_left_eq_some.1 hs
    exact hI.levelled_perform hs i
  | boost => exact levelled_boostStep hs i

end

/-! ## Any run -/

/-- The levels are those of the ticks counted. -/
def Demoted (x : State ncpu × (Slot → ℕ)) : Prop :=
  ∀ p, (x.1.proc p).Live → (x.1.proc p).level = demotion (x.2 p)

theorem Demoted.step {x x' : State ncpu × (Slot → ℕ)} {a : Act ncpu}
    (hc : Consistent (fun _ => True) x.1) (h : Demoted x) (hs : countStep x a = some x') :
    Consistent (fun _ => True) x'.1 ∧ Demoted x' := by
  obtain ⟨s', hs', rfl⟩ := Option.map_eq_some_iff.1 hs
  obtain ⟨L, loc, hI⟩ := hc
  refine ⟨hI.step (fun _ _ _ _ _ => .inr trivial) hs', ?_⟩
  intro p hlive
  have hlev := hI.levelled_step hs' p hlive
  show (s'.proc p).level = demotion (x.1.count a x.2 p)
  unfold State.count
  cases hr : x.1.resets a p with
  | true =>
    rw [hr] at hlev
    exact hlev
  | false =>
    simp only [hr, Bool.false_eq_true, if_false] at hlev ⊢
    obtain ⟨hl, hlev⟩ := hlev
    cases ht : x.1.charges a p with
    | true =>
      simp only [ht, if_true] at hlev ⊢
      rw [hlev]
      exact Proc.level_tick_of_demotion (h p hl)
    | false =>
      simp only [ht, Bool.false_eq_true, if_false] at hlev ⊢
      rw [hlev]
      exact h p hl

/-- **On one CPU the level of a process depends only on the ticks charged to it since its
    last reset**, and `time_slice` is indexed within its bounds. -/
theorem level_eq_demotion {s : State 1} {n : Slot → ℕ}
    (h : Reachable countStep (State.init, fun _ => 0) (s, n)) :
    (∀ p, (s.proc p).state ≠ .unused →
        ((s.proc p).priority, (s.proc p).ticksUsed) = demotion (n p)) ∧
      ∀ p, (s.proc p).priority < timeSlice.length := by
  have hinv := h.invariant (P := fun x => Consistent (fun _ => True) x.1 ∧ Demoted x)
    ⟨⟨_, _, inv_init⟩, fun p hp => absurd rfl hp⟩ fun x a x' hx _ hs => hx.2.step hx.1 hs
  obtain ⟨⟨L, loc, hI⟩, hd⟩ := hinv
  exact ⟨hd, fun p => (hI.good p).priority⟩

/-- The first process runs, gets a tick, yields, and gets two more. -/
theorem level_eq_demotion_yield :
    ∃ s n, run countStep [.on 0 .userinit, .on 0 .deque, .on 0 .dispatch, .on 0 .tick,
        .on 0 .yield, .on 0 .deque, .on 0 .deque, .on 0 .dispatch, .on 0 .tick, .on 0 .tick]
        ((State.init : State 1), fun _ => 0) = some (s, n) ∧
      n 0 = 3 ∧ ((s.proc 0).priority, (s.proc 0).ticksUsed) = (1, 2) := by
  refine ⟨_, _, rfl, rfl, ?_⟩
  exact (level_eq_demotion (.of_run [.on 0 .userinit, .on 0 .deque, .on 0 .dispatch, .on 0 .tick,
    .on 0 .yield, .on 0 .deque, .on 0 .deque, .on 0 .dispatch, .on 0 .tick, .on 0 .tick] rfl)).1 0
    (by decide)

end Xv6
