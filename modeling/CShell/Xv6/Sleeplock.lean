/-
  xv6 formalization — sleep locks (`sleeplock.c`).

  `acquiresleep`, `releasesleep` and `holdingsleep` of one lock as the code of a monitor,
  whose lock is the spinlock `lk->lk`.  A process may call `acquiresleep` while it does not
  hold the lock and `releasesleep` while it does, and `holdingsleep` at any time.  The
  processes have different pids.

  * `sleeplock_serves`: one process at most holds the lock, `holdingsleep` tells whether it
    is the caller, and who sleeps waits for a process that holds the lock.
-/
import CShell.Lib.Inside
import CShell.Xv6.Mlfq

namespace Xv6

open Lib

/-- `struct sleeplock`, without its spinlock. -/
structure SleepLock where
  locked : Bool
  pid : ℕ

/-- Where a process is in the code of the lock. -/
inductive SleepPc where
  /-- outside, without the lock -/
  | user
  /-- outside, with the lock -/
  | hold
  | acquire
  | acquired
  | release
  | wake
  | ret
  /-- in `holdingsleep`; `held` says whether it has been called with the lock -/
  | test (held : Bool)
  | tested (held : Bool) (r : Bool)
  deriving DecidableEq, Repr

/-- The process has the sleep lock. -/
def SleepPc.holds : SleepPc → Bool
  | .hold | .acquired | .release => true
  | .test held | .tested held _ => held
  | _ => false

/-- What a process does next. -/
inductive SleepIn where
  | acquire
  | release
  | test
  | run

/-- `initsleeplock` -/
def SleepLock.init : SleepLock := ⟨false, 0⟩

section
variable (pid : Slot → ℕ)

/-- The code under the spinlock. -/
def sleepCode (t : Slot) (x : SleepLock) : SleepPc → Option (MonitorCmd SleepLock SleepPc Unit)
  | .acquire =>
    if x.locked then some (.wait () .acquire) else some (.update ⟨true, pid t⟩ .acquired)
  | .acquired => some (.release .hold)
  | .release => some (.update ⟨false, 0⟩ .wake)
  | .wake => some (.wakeup () .ret)
  | .ret => some (.release .user)
  | .test held => some (.update x (.tested held (x.locked && x.pid == pid t)))
  | .tested held _ => some (.release (if held then .hold else .user))
  | _ => none

/-- The sleep lock as a monitor. -/
def sleepMonitor : Monitor SleepLock Slot SleepPc Unit SleepIn where
  threads := List.finRange nproc
  mem_threads := List.mem_finRange
  outside _ _ _ _ := none
  enter a _ pc :=
    match a, pc with
    | .acquire, .user => some .acquire
    | .release, .hold => some .release
    | .test, .user => some (.test false)
    | .test, .hold => some (.test true)
    | _, _ => none
  code a t pc x :=
    match a with
    | .run => sleepCode pid t x pc
    | _ => none

/-- The lock and the processes. -/
abbrev SleepLocks := MonitorState SleepLock Slot SleepPc Unit

/-- After `initsleeplock`; nobody is in the code. -/
def SleepLocks.init : SleepLocks := Monitor.init .init fun _ => .user

/-- The lock knows who has it. -/
def SleepLock.Ok (x : SleepLock) : Prop := x.locked = true → ∃ t, x.pid = pid t

/-- What the process `t` knows at `pc`. -/
structure SleepPc.At (t : Slot) (pc : SleepPc) (x : SleepLock) : Prop where
  holds : pc.holds = true ↔ x.locked = true ∧ x.pid = pid t
  tested : ∀ held r, pc = .tested held r → r = held

variable {pid} {t u : Slot} {x y : SleepLock} {pc pc' : SleepPc}

theorem SleepPc.At.goto (h : pc.At pid t x) (hh : pc'.holds = pc.holds)
    (ht : ∀ held r, pc' ≠ .tested held r) : pc'.At pid t x := by
  refine ⟨?_, fun held r heq => absurd heq (ht held r)⟩
  rw [hh]
  exact h.holds

theorem sleepMonitor_code {a : SleepIn} {cmd : MonitorCmd SleepLock SleepPc Unit}
    (h : (sleepMonitor pid).code a t pc x = some cmd) : sleepCode pid t x pc = some cmd := by
  simp only [sleepMonitor] at h
  split at h
  case h_1 => exact h
  case h_2 => cases h

/-- A step with the spinlock. -/
theorem sleepCode_update (hpid : Function.Injective pid) (hx : x.Ok pid) (hat : pc.At pid t x)
    (hs : sleepCode pid t x pc = some (.update y pc')) :
    y.Ok pid ∧ pc'.At pid t y ∧ ∀ u l, u ≠ t → SleepPc.At pid u l x → SleepPc.At pid u l y := by
  cases pc with
  | acquire =>
    rw [sleepCode] at hs
    split at hs
    case isTrue => cases hs
    case isFalse hfree =>
      cases hs
      refine ⟨fun _ => ⟨t, rfl⟩, ⟨iff_of_true rfl ⟨rfl, rfl⟩, fun _ _ h => by cases h⟩, ?_⟩
      intro u l hu hl
      -- nobody had the lock, and it is not `u` who has it now
      refine ⟨?_, hl.tested⟩
      rw [hl.holds]
      refine iff_of_false (fun h => hfree h.1) ?_
      rintro ⟨-, heq⟩
      exact hu (hpid heq.symm)
  | release =>
    cases hs
    have hown := hat.holds.1 rfl
    refine ⟨fun h => (by cases h), ⟨?_, fun _ _ h => by cases h⟩, ?_⟩
    · refine iff_of_false (fun h => (by cases h)) ?_
      rintro ⟨h, -⟩
      cases h
    · intro u l hu hl
      refine ⟨?_, hl.tested⟩
      rw [hl.holds]
      refine iff_of_false ?_ ?_
      · rintro ⟨-, heq⟩
        exact hu (hpid (heq.symm.trans hown.2))
      · rintro ⟨h, -⟩
        cases h
  | test held =>
    cases hs
    refine ⟨hx, ⟨hat.holds, ?_⟩, fun _ _ _ => id⟩
    intro held' r heq
    cases heq
    have hheld : held = true ↔ x.locked = true ∧ x.pid = pid t := hat.holds
    rw [Bool.eq_iff_iff, hheld]
    simp
  | _ => cases hs

theorem sleepCode_wait {c : Unit} (h : sleepCode pid t x pc = some (.wait c pc')) :
    pc = .acquire ∧ pc' = .acquire ∧ x.locked = true := by
  cases pc with
  | acquire =>
    rw [sleepCode] at h
    split at h
    case isTrue hl =>
      cases h
      exact ⟨rfl, rfl, hl⟩
    case isFalse => cases h
  | _ => cases h

theorem sleepCode_wakeup {c : Unit} (h : sleepCode pid t x pc = some (.wakeup c pc')) :
    pc = .wake ∧ pc' = .ret := by
  cases pc with
  | wake =>
    cases h
    exact ⟨rfl, rfl⟩
  | acquire =>
    rw [sleepCode] at h
    split at h <;> cases h
  | _ => cases h

theorem sleepCode_release (h : sleepCode pid t x pc = some (.release pc')) :
    pc ≠ .wake ∧ pc'.holds = pc.holds ∧ ∀ held r, pc' ≠ .tested held r := by
  cases pc with
  | acquired | ret =>
    cases h
    exact ⟨fun h => (by cases h), rfl, fun _ _ h => by cases h⟩
  | tested held r =>
    cases h
    refine ⟨fun h => (by cases h), ?_, ?_⟩
    · cases held <;> rfl
    · intro held' r' heq
      cases held <;> cases heq
  | acquire =>
    rw [sleepCode] at h
    split at h <;> cases h
  | _ => cases h

theorem sleepMonitor_knows (hpid : Function.Injective pid) :
    Knows (sleepMonitor pid) (fun _ _ _ _ => True) (SleepLock.Ok pid)
      (fun t pc x => pc.At pid t x) fun _ _ _ => True where
  outside := by
    intro a t pc x r _ _ hr
    cases hr
  enter := by
    intro a t pc pc' x _ hat hs
    refine ⟨?_, trivial⟩
    simp only [sleepMonitor] at hs
    split at hs
    case h_5 => cases hs
    all_goals
      cases hs
      exact hat.goto rfl fun _ _ h => by cases h
  update := by
    intro a t pc pc' x y hx hat _ _ hs
    obtain ⟨hy, hat', hothers⟩ := sleepCode_update hpid hx hat (sleepMonitor_code hs)
    exact ⟨hy, hat', trivial, hothers⟩
  wakeup := by
    intro a t pc c pc' x _ hat _ _ hs
    obtain ⟨rfl, rfl⟩ := sleepCode_wakeup (sleepMonitor_code hs)
    exact ⟨hat.goto rfl (fun _ _ h => by cases h), trivial⟩
  wait := by
    intro a t pc c pc' x _ hat _ _ hs
    obtain ⟨rfl, rfl, -⟩ := sleepCode_wait (sleepMonitor_code hs)
    exact ⟨hat, fun _ _ _ => trivial⟩
  release := by
    intro a t pc pc' x _ hat _ _ hs
    obtain ⟨-, hholds, htested⟩ := sleepCode_release (sleepMonitor_code hs)
    exact hat.goto hholds htested

/-- Who waits, and who has to wake it. -/
def sleepDiscipline :
    Discipline (sleepMonitor pid) (fun _ => True) fun _ _ _ _ => True where
  blocked x _ pc _ := pc = .acquire ∧ x.locked = true
  owes _ _ pc _ := pc = .wake
  outside := by
    intro s a t pc r _ _ hr
    cases hr
  update := by
    intro s a t pc y pc' _ _ _ hs
    have hs := sleepMonitor_code hs
    cases hpc : pc with
    | acquire =>
      rw [hpc, sleepCode] at hs
      split at hs
      case isTrue => cases hs
      case isFalse =>
        cases hs
        exact ⟨fun _ _ _ _ _ hb => .inl ⟨hb.1, rfl⟩, fun _ h => by cases h⟩
    | release =>
      rw [hpc] at hs
      cases hs
      exact ⟨fun _ _ _ _ _ _ => .inr rfl, fun _ h => by cases h⟩
    | test held =>
      rw [hpc] at hs
      cases hs
      exact ⟨fun _ _ _ _ _ hb => .inl hb, fun _ h => by cases h⟩
    | _ =>
      rw [hpc] at hs
      cases hs
  wakeup := by
    intro s a t pc c pc' _ _ _ _ c' hc
    exact absurd rfl hc
  wait := by
    intro s a t pc c pc' _ _ _ hs
    obtain ⟨rfl, rfl, hl⟩ := sleepCode_wait (sleepMonitor_code hs)
    exact ⟨⟨rfl, hl⟩, fun _ h => by cases h⟩
  release := by
    intro s a t pc pc' _ _ _ hs _
    exact (sleepCode_release (sleepMonitor_code hs)).1

theorem SleepPc.user_at (t : Slot) : SleepPc.user.At pid t .init := by
  refine ⟨iff_of_false (fun h => (by cases h)) ?_, fun _ _ h => by cases h⟩
  rintro ⟨h, -⟩
  cases h

end

/-- **Sleep locks**, in every interleaving: at most one process has the lock;
    `holdingsleep` returns whether its caller has it; and while the spinlock is free, who
    sleeps in `acquiresleep` waits for a process that has the lock. -/
theorem sleeplock_serves {pid : Slot → ℕ} (hpid : Function.Injective pid) {s : SleepLocks}
    (h : Reachable (sleepMonitor pid).step SleepLocks.init s) :
    (∀ t u, (s.place t).loc.holds = true → (s.place u).loc.holds = true → t = u) ∧
      (∀ t held r, s.place t = .inside (.tested held r) → r = held) ∧
      ∀ t c pc, s.lock = none → s.place t = .asleep c pc →
        ∃ u, u ≠ t ∧ (s.place u).loc.holds = true := by
  have h := Monitor.reach_ok h
  have hinv := (sleepMonitor_knows hpid).inv (fun h => by cases h) SleepPc.user_at h
  refine ⟨?_, ?_, ?_⟩
  · intro t u ht hu
    have ht := ((hinv.own t).holds.1 ht).2
    have hu := ((hinv.own u).holds.1 hu).2
    exact hpid (ht.symm.trans hu)
  · intro t held r hp
    have hat := hinv.own t
    rw [hp] at hat
    exact hat.tested held r rfl
  · intro t c pc hn hp
    obtain ⟨rfl, hlocked⟩ : pc = .acquire ∧ s.shared.locked = true :=
      (sleepDiscipline.waits (fun _ _ => trivial) h).blocked_of_asleep hn hp
    obtain ⟨u, hu⟩ := hinv.always hlocked
    have hholds := (hinv.own u).holds.2 ⟨hlocked, hu⟩
    refine ⟨u, ?_, hholds⟩
    rintro rfl
    rw [hp] at hholds
    cases hholds

/-- Process 0 has the lock and process 1 waits for it. -/
def oneWaits : List (MonitorAct Slot SleepIn) :=
  [.enter 0 .acquire, .code 0 .run, .code 0 .run, .enter 1 .acquire, .code 1 .run, .release 1,
    .sleep 1]

theorem sleeplock_serves_oneWaits :
    ∃ s, Reachable (sleepMonitor fun t => t.val + 1).step SleepLocks.init s ∧
      s.place 1 = .asleep () .acquire ∧ ∃ u, u ≠ 1 ∧ (s.place u).loc.holds = true := by
  have hfacts : (Lib.run (sleepMonitor fun t => t.val + 1).step oneWaits SleepLocks.init).map
      (fun s => (s.lock, s.place 1)) = some (none, .asleep () .acquire) := by decide +kernel
  obtain ⟨s, hs, hfacts⟩ := Option.map_eq_some_iff.1 hfacts
  have hreach := Reachable.of_run oneWaits hs
  have hplace := congrArg Prod.snd hfacts
  have hpid : Function.Injective fun t : Slot => t.val + 1 := by
    intro t u h
    exact Fin.ext (Nat.add_right_cancel h)
  exact ⟨s, hreach, hplace,
    (sleeplock_serves hpid hreach).2.2 1 () .acquire (congrArg Prod.fst hfacts) hplace⟩

end Xv6
