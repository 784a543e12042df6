/-
  xv6 formalization — `kfork`, `kexit` and `kwait` (`proc.c`).

  What the three do between two accesses to `wait_lock`, as the code of a monitor: a
  process forks in three steps (the child is allocated, gets its parent under the lock,
  is made runnable), gives its children to `initproc` one by one when it exits, and
  scans the table one slot after the other when it waits; others run in between.

  Of `enum procstate` there is what the three look at.  `allocproc` may find any
  unused slot, since slots before it may have become free behind its back.  A slot is
  used again once its process has been waited for, and the state carries what the
  processes of each slot passed to `kexit`, and what `kwait` has handed out.  A `pid`
  is a number that does not wrap.

  * `family_tree`: every process but `initproc` has a parent that is alive, and the
    parents lead to `initproc`;
  * `kwait_accounts`: every exit is waited for exactly once, with its status;
  * `kwait_no_lost_exit`: who sleeps in `kwait` has children, none of them a zombie.
-/
import CShell.Lib.Woken
import CShell.Xv6.Mlfq
import Mathlib.Logic.Relation

namespace Xv6

open Lib

/-- The state of a slot. -/
inductive Life where
  | unused
  /-- `USED`: being set up by `p` -/
  | used (p : Slot)
  | live
  | zombie
  deriving DecidableEq, Repr

/-- The process table as `kfork`, `kexit` and `kwait` use it. -/
structure Family where
  life : Slot → Life
  parent : Slot → Option Slot
  xstate : Slot → ℤ
  pid : Slot → ℕ
  nextpid : ℕ
  /-- what the processes of the slot passed to `kexit` -/
  exits : Slot → List ℤ
  /-- what `kwait` copied out of the slot -/
  reaps : Slot → List ℤ

/-- The first slot, which `userinit` takes. -/
def initSlot : Slot := Fin.ofNat nproc 0

namespace Family

/-- After `userinit`. -/
def init : Family where
  life := Function.update (fun _ => .unused) initSlot .live
  parent _ := none
  xstate _ := 0
  pid := Function.update (fun _ => 0) initSlot 1
  nextpid := 2
  exits _ := []
  reaps _ := []

/-- `allocproc`: the slot is taken and gets the next pid. -/
def allocproc (p np : Slot) (x : Family) : Family :=
  { x with
    life := Function.update x.life np (.used p)
    pid := Function.update x.pid np x.nextpid
    nextpid := x.nextpid + 1 }

/-- `np->parent = p` -/
def setParent (np p : Slot) (x : Family) : Family :=
  { x with parent := Function.update x.parent np (some p) }

/-- `np->state = RUNNABLE` -/
def makeRunnable (np : Slot) (x : Family) : Family :=
  { x with life := Function.update x.life np .live }

/-- The end of `kexit`. -/
def becomeZombie (p : Slot) (status : ℤ) (x : Family) : Family :=
  { x with
    life := Function.update x.life p .zombie
    xstate := Function.update x.xstate p status
    exits := Function.update x.exits p (x.exits p ++ [status]) }

/-- `kwait` has copied the status out; then `pp->parent = 0` and `freeproc`. -/
def reap (pp : Slot) (x : Family) : Family :=
  { x with
    life := Function.update x.life pp .unused
    parent := Function.update x.parent pp none
    xstate := Function.update x.xstate pp 0
    pid := Function.update x.pid pp 0
    reaps := Function.update x.reaps pp (x.reaps pp ++ [x.xstate pp]) }

end Family

/-- Where a process is; `todo` are the slots a loop over the table has still to come
    to. -/
inductive WaitPc where
  /-- the slot has no process that runs -/
  | off
  | user
  /-- in `kfork`, before `acquire(&wait_lock)` -/
  | forked (np : Slot)
  | setParent (np : Slot)
  | parented (np : Slot)
  /-- in `kfork`, after `release(&wait_lock)` -/
  | forking (np : Slot)
  /-- in `reparent` -/
  | exit (status : ℤ) (todo : List Slot)
  /-- in `reparent`, before `wakeup(initproc)` -/
  | adopted (status : ℤ) (todo : List Slot)
  /-- in `kexit`, after `wakeup(p->parent)` -/
  | dying (status : ℤ) (parent : Option Slot)
  | dead
  | wait (todo : List Slot) (havekids : Bool)
  /-- in `kwait`, before the last `release` -/
  | ret (r : ℤ)
  deriving DecidableEq, Repr

/-- What the code depends on. -/
inductive WaitIn where
  | fork (np : Slot)
  | exit (status : ℤ)
  | wait
  /-- what `killed` and `copyout` answer -/
  | env (killed copyout : Bool)

/-- Without the lock. -/
def waitOutside (a : WaitIn) (p : Slot) (pc : WaitPc) (x : Family) : Option (Family × WaitPc) :=
  match a, pc with
  | .fork np, .user =>
    if x.life np = .unused then some (x.allocproc p np, .forked np) else none
  | .env _ _, .forking np => some (x.makeRunnable np, .user)
  -- the scheduler runs a new process
  | .env _ _, .off => if x.life p = .live then some (x, .user) else none
  | _, _ => none

/-- `acquire(&wait_lock)` -/
def waitEnter (a : WaitIn) (p : Slot) (pc : WaitPc) : Option WaitPc :=
  match a, pc with
  | .env _ _, .forked np => some (.setParent np)
  -- `panic("init exiting")`
  | .exit status, .user =>
    if p = initSlot then none else some (.exit status (List.finRange nproc))
  | .wait, .user => some (.wait (List.finRange nproc) false)
  | _, _ => none

/-- A round of the loop of `kwait` over the table. -/
def kwait (p pp : Slot) (todo : List Slot) (havekids copyout : Bool) (x : Family) :
    MonitorCmd Family WaitPc (Option Slot) :=
  if x.parent pp = some p then
    if x.life pp = .zombie then
      if copyout = true then .update (x.reap pp) (.ret (x.pid pp)) else .update x (.ret (-1))
    else .update x (.wait todo true)
  else .update x (.wait todo havekids)

/-- With the lock. -/
def waitCode (p : Slot) (killed copyout : Bool) (x : Family) :
    WaitPc → Option (MonitorCmd Family WaitPc (Option Slot))
  | .setParent np => some (.update (x.setParent np p) (.parented np))
  | .parented np => some (.release (.forking np))
  | .exit status (pp :: todo) =>
    if x.parent pp = some p then
      some (.update (x.setParent pp initSlot) (.adopted status todo))
    else some (.update x (.exit status todo))
  | .adopted status todo => some (.wakeup (some initSlot) (.exit status todo))
  | .exit status [] => some (.wakeup (x.parent p) (.dying status (x.parent p)))
  | .dying status _ => some (.update (x.becomeZombie p status) .dead)
  | .dead => some (.release .off)
  | .wait (pp :: todo) havekids => some (kwait p pp todo havekids copyout x)
  | .wait [] havekids =>
    if havekids = false ∨ killed = true then some (.update x (.ret (-1)))
    else some (.wait (some p) (.wait (List.finRange nproc) false))
  | .ret _ => some (.release .user)
  | .off | .user | .forked _ | .forking _ => none

/-- The processes of the table, with `wait_lock`. -/
def waitMonitor : Monitor Family Slot WaitPc (Option Slot) WaitIn where
  threads := List.finRange nproc
  mem_threads := List.mem_finRange
  outside := waitOutside
  enter := waitEnter
  code a p pc x :=
    match a with
    | .env killed copyout => waitCode p killed copyout x pc
    | _ => none

/-- The processes and `wait_lock`. -/
abbrev Waits := MonitorState Family Slot WaitPc (Option Slot)

/-- `initproc` runs, and the other slots are free. -/
def Waits.init : Waits :=
  Monitor.init .init fun p => if p = initSlot then .user else .off

/-! ## The tree of processes -/

/-- Every process but the first has a living parent, older than itself, and what has
    exited has been waited for or is a zombie. -/
structure Family.Ok (x : Family) : Prop where
  init : x.life initSlot = .live
  root : x.parent initSlot = none
  parents : ∀ q p, x.parent q = some p → x.life p = .live ∧ x.pid p < x.pid q
  orphan : ∀ q, x.life q = .live ∨ x.life q = .zombie → q ≠ initSlot → x.parent q ≠ none
  unused : ∀ q, x.life q = .unused → x.parent q = none
  nextpid : ∀ q, x.pid q < x.nextpid
  first : ∀ q, x.life q ≠ .unused → q ≠ initSlot → x.pid initSlot < x.pid q
  books : ∀ q, x.exits q = x.reaps q ++ if x.life q = .zombie then [x.xstate q] else []

theorem Family.ok_init : Family.init.Ok where
  init := by simp [Family.init]
  root := rfl
  parents _ _ h := by cases h
  orphan q h hq := by
    simp [Family.init, hq] at h
  unused _ _ := rfl
  nextpid q := by
    by_cases hq : q = initSlot
    · simp [Family.init, hq]
    · simp [Family.init, hq]
  first q h hq := by
    simp [Family.init, hq] at h
  books q := by
    by_cases hq : q = initSlot
    · simp [Family.init, hq]
    · simp [Family.init, hq]

namespace Family

variable {x y : Family} {p np pp : Slot}

theorem Ok.allocproc (h : x.Ok) (hnp : x.life np = .unused) : (x.allocproc p np).Ok := by
  obtain ⟨hinit, hroot, hparents, horphan, hunused, hnext, hfirst, hbooks⟩ := h
  constructor <;> simp only [Family.allocproc, Function.update_apply] <;> grind

theorem Ok.setParent (h : x.Ok) (hp : x.life p = .live) (hpid : x.pid p < x.pid np)
    (hnp : np ≠ initSlot) (hu : x.life np ≠ .unused) : (x.setParent np p).Ok := by
  obtain ⟨hinit, hroot, hparents, horphan, hunused, hnext, hfirst, hbooks⟩ := h
  constructor <;> simp only [Family.setParent, Function.update_apply] <;> grind

theorem Ok.makeRunnable (h : x.Ok) (hnp : x.life np = .used p) (hp : x.parent np = some p) :
    (x.makeRunnable np).Ok := by
  obtain ⟨hinit, hroot, hparents, horphan, hunused, hnext, hfirst, hbooks⟩ := h
  constructor <;> simp only [Family.makeRunnable, Function.update_apply] <;> grind

theorem Ok.becomeZombie (h : x.Ok) (hp : x.life p = .live) (hi : p ≠ initSlot)
    (hkids : ∀ q, x.parent q ≠ some p) (status : ℤ) : (x.becomeZombie p status).Ok := by
  obtain ⟨hinit, hroot, hparents, horphan, hunused, hnext, hfirst, hbooks⟩ := h
  constructor <;> simp only [Family.becomeZombie, Function.update_apply] <;> grind

theorem Ok.reap (h : x.Ok) (hp : x.life pp = .zombie) : (x.reap pp).Ok := by
  obtain ⟨hinit, hroot, hparents, horphan, hunused, hnext, hfirst, hbooks⟩ := h
  constructor <;> simp only [Family.reap, Function.update_apply] <;> grind

/-- What a step of `p` leaves to the others: they stay alive, their children under
    construction stay theirs, and none gets a child, except for the first process. -/
structure Frame (p : Slot) (x y : Family) : Prop where
  live : ∀ u, u ≠ p → x.life u = .live → y.life u = .live ∧ y.pid u = x.pid u
  used : ∀ u np, u ≠ p → x.life np = .used u → y.life np = .used u ∧ y.pid np = x.pid np ∧
    (x.parent np = some u ∨ x.parent np = none → y.parent np = x.parent np)
  child : ∀ u q, u ≠ p → u ≠ initSlot → y.parent q = some u → x.parent q = some u

theorem Frame.refl (p : Slot) (x : Family) : Frame p x x :=
  ⟨fun _ _ h => ⟨h, rfl⟩, fun _ _ _ h => ⟨h, rfl, fun _ => rfl⟩, fun _ _ _ _ => id⟩

theorem frame_allocproc (hnp : x.life np = .unused) : Frame p x (x.allocproc p np) := by
  constructor <;> simp only [Family.allocproc, Function.update_apply] <;> grind

theorem frame_setParent (hnp : x.life np = .used p) : Frame p x (x.setParent np p) := by
  constructor <;> simp only [Family.setParent, Function.update_apply] <;> grind

theorem frame_adopt (hpp : x.parent pp = some p) : Frame p x (x.setParent pp initSlot) := by
  constructor <;> simp only [Family.setParent, Function.update_apply] <;> grind

theorem frame_makeRunnable (hnp : x.life np = .used p) : Frame p x (x.makeRunnable np) := by
  constructor <;> simp only [Family.makeRunnable, Function.update_apply] <;> grind

theorem frame_becomeZombie (hp : x.life p = .live) (status : ℤ) :
    Frame p x (x.becomeZombie p status) := by
  constructor <;> simp only [Family.becomeZombie, Function.update_apply] <;> grind

theorem frame_reap (hpp : x.life pp = .zombie) : Frame p x (x.reap pp) := by
  constructor <;> simp only [Family.reap, Function.update_apply] <;> grind

end Family

open Family

/-- The process runs. -/
def WaitPc.Runs : WaitPc → Prop
  | .off | .dead => False
  | _ => True

/-- What a process knows wherever it is. -/
structure WaitPc.Own (p : Slot) (pc : WaitPc) (x : Family) : Prop where
  live : pc.Runs → x.life p = .live
  own : match pc with
    | .forked np | .setParent np =>
      x.life np = .used p ∧ x.parent np = none ∧ x.pid p < x.pid np
    | .parented np | .forking np => x.life np = .used p ∧ x.parent np = some p
    | .exit _ todo | .adopted _ todo => p ≠ initSlot ∧ ∀ q, q ∉ todo → x.parent q ≠ some p
    | .dying _ _ => p ≠ initSlot ∧ ∀ q, x.parent q ≠ some p
    | _ => True

/-- What a process knows with the lock. -/
def WaitPc.Knows (p : Slot) (pc : WaitPc) (x : Family) : Prop :=
  match pc with
  | .wait todo havekids =>
    (∀ q, q ∉ todo → x.parent q = some p → x.life q ≠ .zombie) ∧
      (havekids = true → ∃ q, x.parent q = some p)
  | .dying _ parent => x.parent p = parent
  | _ => True

variable {x y : Family} {p : Slot} {pc : WaitPc}

theorem WaitPc.Own.frame {u : Slot} (h : pc.Own u x) (hf : Frame p x y) (hu : u ≠ p) :
    pc.Own u y := by
  obtain ⟨hlive, hown⟩ := h
  refine ⟨fun hr => (hf.live u hu (hlive hr)).1, ?_⟩
  cases pc with
  | forked np | setParent np =>
    obtain ⟨hused, hpid, hparent⟩ := hf.used u np hu hown.1
    refine ⟨hused, (hparent (.inr hown.2.1)).trans hown.2.1, ?_⟩
    rw [hpid, (hf.live u hu (hlive trivial)).2]
    exact hown.2.2
  | parented np | forking np =>
    obtain ⟨hused, -, hparent⟩ := hf.used u np hu hown.1
    exact ⟨hused, (hparent (.inl hown.2)).trans hown.2⟩
  | exit status todo | adopted status todo =>
    refine ⟨hown.1, ?_⟩
    intro q hq hp
    exact hown.2 q hq (hf.child u q hu hown.1 hp)
  | dying status parent =>
    refine ⟨hown.1, ?_⟩
    intro q hp
    exact hown.2 q (hf.child u q hu hown.1 hp)
  | off | user | dead | wait | ret => trivial

/-- The steps without the lock change no parent, and make no zombie. -/
theorem waitOutside_keeps {a : WaitIn} {r : Family × WaitPc} (hx : x.Ok) (hown : pc.Own p x)
    (hr : waitOutside a p pc x = some r) :
    r.1.Ok ∧ r.2.Own p r.1 ∧ Frame p x r.1 ∧ r.1.parent = x.parent ∧
      ∀ q, r.1.life q = .zombie → x.life q = .zombie := by
  rw [waitOutside.eq_def] at hr
  split at hr
  case h_1 np =>
    obtain ⟨hnp, hr⟩ := Option.ite_none_right_eq_some.1 hr
    cases hr
    have hpn : p ≠ np := by
      rintro rfl
      rw [hown.live trivial] at hnp
      cases hnp
    refine ⟨hx.allocproc hnp, ⟨fun _ => ?_, ?_, hx.unused np hnp, ?_⟩, frame_allocproc hnp, rfl,
      ?_⟩
    · exact (Function.update_of_ne hpn _ _).trans (hown.live trivial)
    · exact Function.update_self ..
    · simp only [Family.allocproc, Function.update_self, Function.update_of_ne hpn]
      exact hx.nextpid p
    · intro q hq
      by_cases hqn : q = np
      · simp [Family.allocproc, hqn] at hq
      · simpa [Family.allocproc, hqn] using hq
  case h_2 np =>
    cases hr
    obtain ⟨hused, hparent⟩ := hown.own
    refine ⟨hx.makeRunnable hused hparent, ⟨fun _ => ?_, trivial⟩, frame_makeRunnable hused, rfl,
      ?_⟩
    · have hpn : p ≠ np := by
        rintro rfl
        rw [hown.live trivial] at hused
        cases hused
      exact (Function.update_of_ne hpn _ _).trans (hown.live trivial)
    · intro q hq
      by_cases hqn : q = np
      · simp [Family.makeRunnable, hqn] at hq
      · simpa [Family.makeRunnable, hqn] using hq
  case h_3 =>
    obtain ⟨hlive, hr⟩ := Option.ite_none_right_eq_some.1 hr
    cases hr
    exact ⟨hx, ⟨fun _ => hlive, trivial⟩, .refl p x, rfl, fun _ => id⟩
  case h_4 => cases hr

theorem waitEnter_keeps {a : WaitIn} {pc' : WaitPc} (hown : pc.Own p x)
    (he : waitEnter a p pc = some pc') : pc'.Own p x ∧ pc'.Knows p x := by
  rw [waitEnter.eq_def] at he
  split at he
  case h_1 np =>
    cases he
    exact ⟨⟨fun _ => hown.live trivial, hown.own⟩, trivial⟩
  case h_2 status =>
    obtain ⟨hp, he⟩ := Option.ite_none_left_eq_some.1 he
    cases he
    exact ⟨⟨fun _ => hown.live trivial, hp, fun q hq => absurd (List.mem_finRange q) hq⟩, trivial⟩
  case h_3 =>
    cases he
    exact ⟨⟨fun _ => hown.live trivial, trivial⟩,
      fun q hq => absurd (List.mem_finRange q) hq, nofun⟩
  case h_4 => cases he

/-- What a command of `p` has to keep. -/
def WaitKeeps (p : Slot) (x : Family) : MonitorCmd Family WaitPc (Option Slot) → Prop
  | .update y pc => y.Ok ∧ pc.Own p y ∧ pc.Knows p y ∧ Frame p x y
  | .wakeup _ pc => pc.Own p x ∧ pc.Knows p x
  | .wait _ pc => pc.Own p x ∧ ∀ y, pc.Knows p y
  | .release pc => pc.Own p x

theorem kwait_keeps {pp : Slot} {todo : List Slot} {havekids copyout : Bool} (hx : x.Ok)
    (hlive : x.life p = .live) (hk : (WaitPc.wait (pp :: todo) havekids).Knows p x) :
    WaitKeeps p x (kwait p pp todo havekids copyout x) := by
  obtain ⟨hzombie, hkids⟩ := hk
  rw [kwait]
  split
  case isTrue hpp =>
    split
    case isTrue hz =>
      split
      case isTrue =>
        refine ⟨hx.reap hz, ⟨fun _ => ?_, trivial⟩, trivial, frame_reap hz⟩
        have hne : p ≠ pp := by
          rintro rfl
          rw [hlive] at hz
          cases hz
        exact (Function.update_of_ne hne _ _).trans hlive
      case isFalse => exact ⟨hx, ⟨fun _ => hlive, trivial⟩, trivial, .refl p x⟩
    case isFalse hz =>
      refine ⟨hx, ⟨fun _ => hlive, trivial⟩, ⟨?_, fun _ => ⟨pp, hpp⟩⟩, .refl p x⟩
      intro q hq hqp
      by_cases hqpp : q = pp
      · rw [hqpp]
        exact hz
      · exact hzombie q (by simp [hqpp, hq]) hqp
  case isFalse hpp =>
    refine ⟨hx, ⟨fun _ => hlive, trivial⟩, ⟨?_, hkids⟩, .refl p x⟩
    intro q hq hqp
    have hqpp : q ≠ pp := by
      rintro rfl
      exact hpp hqp
    exact hzombie q (by simp [hqpp, hq]) hqp

theorem waitCode_keeps {killed copyout : Bool} (hx : x.Ok) (hown : pc.Own p x)
    (hk : pc.Knows p x) {cmd : MonitorCmd Family WaitPc (Option Slot)}
    (hc : waitCode p killed copyout x pc = some cmd) : WaitKeeps p x cmd := by
  cases pc with
  | off | user | forked np | forking np => cases hc
  | setParent np =>
    cases hc
    obtain ⟨hused, -, hpid⟩ := hown.own
    have hnp : np ≠ initSlot := by
      rintro rfl
      rw [hx.init] at hused
      cases hused
    have hu : x.life np ≠ .unused := by
      rw [hused]
      exact nofun
    exact ⟨hx.setParent (hown.live trivial) hpid hnp hu,
      ⟨fun _ => hown.live trivial, hused, Function.update_self ..⟩, trivial, frame_setParent hused⟩
  | parented np =>
    cases hc
    exact ⟨fun _ => hown.live trivial, hown.own⟩
  | exit status todo =>
    obtain ⟨hp, hkids⟩ := hown.own
    cases todo with
    | nil =>
      cases hc
      exact ⟨⟨fun _ => hown.live trivial, hp, fun q => hkids q List.not_mem_nil⟩, rfl⟩
    | cons pp todo =>
      rw [waitCode] at hc
      split at hc
      case isTrue hpp =>
        cases hc
        obtain ⟨hlive, hpid⟩ := hx.parents pp p hpp
        have hppi : pp ≠ initSlot := by
          rintro rfl
          rw [hx.root] at hpp
          cases hpp
        have hu : x.life pp ≠ .unused := by
          intro hu
          rw [hx.unused pp hu] at hpp
          cases hpp
        refine ⟨hx.setParent hx.init (hx.first pp hu hppi) hppi hu,
          ⟨fun _ => hlive, hp, ?_⟩, trivial, frame_adopt hpp⟩
        intro q hq
        by_cases hqpp : q = pp
        · rw [hqpp]
          simpa [Family.setParent] using fun h : initSlot = p => hp h.symm
        · simpa [Family.setParent, hqpp] using hkids q (by simp [hqpp, hq])
      case isFalse hpp =>
        cases hc
        refine ⟨hx, ⟨fun _ => hown.live trivial, hp, ?_⟩, trivial, .refl p x⟩
        intro q hq hqp
        have hqpp : q ≠ pp := by
          rintro rfl
          exact hpp hqp
        exact hkids q (by simp [hqpp, hq]) hqp
  | adopted status todo =>
    cases hc
    exact ⟨⟨fun _ => hown.live trivial, hown.own⟩, trivial⟩
  | dying status parent =>
    cases hc
    obtain ⟨hp, hkids⟩ := hown.own
    exact ⟨hx.becomeZombie (hown.live trivial) hp hkids status, ⟨nofun, trivial⟩, trivial,
      frame_becomeZombie (hown.live trivial) status⟩
  | dead =>
    cases hc
    exact ⟨nofun, trivial⟩
  | wait todo havekids =>
    cases todo with
    | nil =>
      rw [waitCode] at hc
      split at hc
      case isTrue =>
        cases hc
        exact ⟨hx, ⟨fun _ => hown.live trivial, trivial⟩, trivial, .refl p x⟩
      case isFalse =>
        cases hc
        refine ⟨⟨fun _ => hown.live trivial, trivial⟩, fun y => ⟨?_, nofun⟩⟩
        intro q hq
        exact absurd (List.mem_finRange q) hq
    | cons pp todo =>
      cases hc
      exact kwait_keeps hx (hown.live trivial) hk
  | ret r =>
    cases hc
    exact ⟨fun _ => hown.live trivial, trivial⟩

/-- The code with the lock, whatever it depends on. -/
theorem waitMonitor_code {a : WaitIn} {cmd : MonitorCmd Family WaitPc (Option Slot)}
    (hc : waitMonitor.code a p pc x = some cmd) :
    ∃ killed copyout, waitCode p killed copyout x pc = some cmd := by
  cases a with
  | env killed copyout => exact ⟨killed, copyout, hc⟩
  | _ => cases hc

theorem waitMonitor_knows :
    Knows waitMonitor (fun _ _ _ _ => True) Family.Ok (fun p pc x => pc.Own p x)
      fun p pc x => pc.Knows p x where
  outside {a t l x r} hx hown hr := by
    obtain ⟨hok, hown', hf, hparent, hzombie⟩ := waitOutside_keeps hx hown hr
    refine ⟨hok, hown', fun u l hu h => h.frame hf hu, ?_⟩
    intro u pc _ _ hk
    cases pc with
    | wait todo havekids =>
      obtain ⟨hz, hkids⟩ := hk
      refine ⟨?_, ?_⟩
      · intro q hq hp hqz
        rw [hparent] at hp
        exact hz q hq hp (hzombie q hqz)
      · rw [hparent]
        exact hkids
    | dying status parent =>
      show r.1.parent u = parent
      rw [hparent]
      exact hk
    | _ => trivial
  enter _ hown he := waitEnter_keeps hown he
  update hx hown hk _ hc := by
    obtain ⟨killed, copyout, hc⟩ := waitMonitor_code hc
    obtain ⟨hok, hown', hk', hf⟩ := waitCode_keeps hx hown hk hc
    exact ⟨hok, hown', hk', fun u l hu h => h.frame hf hu⟩
  wakeup hx hown hk _ hc := by
    obtain ⟨killed, copyout, hc⟩ := waitMonitor_code hc
    exact waitCode_keeps hx hown hk hc
  wait hx hown hk _ hc := by
    obtain ⟨killed, copyout, hc⟩ := waitMonitor_code hc
    obtain ⟨hown', hk'⟩ := waitCode_keeps hx hown hk hc
    exact ⟨hown', fun y _ _ => hk' y⟩
  release hx hown hk _ hc := by
    obtain ⟨killed, copyout, hc⟩ := waitMonitor_code hc
    exact waitCode_keeps hx hown hk hc

theorem own_init (p : Slot) :
    WaitPc.Own p (if p = initSlot then .user else .off) Family.init := by
  split
  case isTrue hp => exact ⟨fun _ => by simp [Family.init, hp], trivial⟩
  case isFalse => exact ⟨nofun, trivial⟩

variable {s : Waits} {G : Waits → MonitorAct Slot WaitIn → Prop}

theorem waits_inv (h : Reach waitMonitor.step G Waits.init s) :
    Knows.Inv Family.Ok (fun p pc x => pc.Own p x) (fun p pc x => pc.Knows p x) s :=
  waitMonitor_knows.inv Family.ok_init own_init (Monitor.reach_ok h)

/-- Following the parents leads to the first process, since they are older. -/
theorem Family.Ok.descends (h : x.Ok) (n : ℕ) : ∀ q, x.pid q ≤ n →
    x.life q = .live ∨ x.life q = .zombie →
      Relation.ReflTransGen (fun q p => x.parent q = some p) q initSlot := by
  induction n with
  | zero =>
    intro q hn hq
    by_cases hqi : q = initSlot
    · rw [hqi]
    · have := h.first q (by rcases hq with hq | hq <;> rw [hq] <;> exact nofun) hqi
      omega
  | succ n ih =>
    intro q hn hq
    by_cases hqi : q = initSlot
    · rw [hqi]
    · obtain ⟨p, hp⟩ := Option.ne_none_iff_exists'.1 (h.orphan q hq hqi)
      obtain ⟨hlive, hlt⟩ := h.parents q p hp
      exact .head hp (ih p (by omega) (.inl hlive))

/-- **The processes form a tree**: in every run the parent of a process, dead or alive, is
    alive, so that no zombie is left without somebody to wait for it; and the parents lead
    to `initproc`, which is alive. -/
theorem family_tree (h : Reachable waitMonitor.step Waits.init s) (q : Slot)
    (hq : s.shared.life q = .live ∨ s.shared.life q = .zombie) :
    (q ≠ initSlot → ∃ p, s.shared.parent q = some p ∧ s.shared.life p = .live) ∧
      Relation.ReflTransGen (fun q p => s.shared.parent q = some p) q initSlot ∧
      s.shared.life initSlot = .live := by
  have hok := (waits_inv h).always
  refine ⟨?_, hok.descends _ q (Nat.le_refl _) hq, hok.init⟩
  intro hqi
  obtain ⟨p, hp⟩ := Option.ne_none_iff_exists'.1 (hok.orphan q hq hqi)
  exact ⟨p, hp, (hok.parents q p hp).1⟩

/-- `initproc` forks a child. -/
def forkChild : List (MonitorAct Slot WaitIn) :=
  [.outside 0 (.fork 1), .enter 0 (.env false true), .code 0 (.env false true),
    .code 0 (.env false true), .outside 0 (.env false true), .outside 1 (.env false true)]

/-- The child exits with status 7. -/
def childExits : List (MonitorAct Slot WaitIn) :=
  [.enter 1 (.exit 7)] ++ List.replicate 65 (.code 1 (.env false true)) ++
    List.replicate 65 (.wake 1) ++ List.replicate 2 (.code 1 (.env false true))

theorem family_tree_zombie : ∃ s, Reachable waitMonitor.step Waits.init s ∧
    s.shared.life 1 = .zombie ∧
    ∃ p, s.shared.parent 1 = some p ∧ s.shared.life p = .live := by
  have hfacts : (Lib.run waitMonitor.step (forkChild ++ childExits) Waits.init).map
      (fun s => s.shared.life 1) = some .zombie := by decide +kernel
  obtain ⟨s, hs, hz⟩ := Option.map_eq_some_iff.1 hfacts
  have hreach := Reachable.of_run _ hs
  exact ⟨s, hreach, hz, (family_tree hreach 1 (.inr hz)).1 (by decide)⟩

/-- **Every exit is waited for once**: what `kwait` has handed out of a slot is what the
    processes of the slot passed to `kexit`, in this order, except for the last one if that
    one is still a zombie; and then its status is kept. -/
theorem kwait_accounts (h : Reachable waitMonitor.step Waits.init s) (q : Slot) :
    s.shared.exits q =
      s.shared.reaps q ++ if s.shared.life q = .zombie then [s.shared.xstate q] else [] :=
  (waits_inv h).always.books q

/-- `initproc` waits, and finds the child in the second slot. -/
def initWaits : List (MonitorAct Slot WaitIn) :=
  [.enter 0 .wait] ++ List.replicate 2 (.code 0 (.env false true))

theorem kwait_accounts_one : ∃ s, Reachable waitMonitor.step Waits.init s ∧
    s.shared.reaps 1 = [7] ∧ s.shared.exits 1 = s.shared.reaps 1 ++ [] := by
  have hfacts : (Lib.run waitMonitor.step (forkChild ++ childExits ++ initWaits) Waits.init).map
      (fun s => (s.shared.reaps 1, s.shared.life 1)) = some ([7], .unused) := by decide +kernel
  obtain ⟨s, hs, hfacts⟩ := Option.map_eq_some_iff.1 hfacts
  have hreach := Reachable.of_run _ hs
  have hlife : s.shared.life 1 = .unused := congrArg Prod.snd hfacts
  refine ⟨s, hreach, congrArg Prod.fst hfacts, ?_⟩
  rw [kwait_accounts hreach 1, hlife]
  rfl

/-! ## Nobody misses an exit -/

/-- Who sleeps in `kwait` has children, none of them a zombie. -/
structure Family.Blocked (x : Family) (u : Slot) (c : Option Slot) : Prop where
  chan : c = some u
  kids : ∃ q, x.parent q = some u
  zombie : ∀ q, x.parent q = some u → x.life q ≠ .zombie

/-- After a child has been given to `initproc`, that one has to be woken. -/
def WaitPc.Owes (pc : WaitPc) (c : Option Slot) : Prop :=
  match pc with
  | .adopted _ _ => c = some initSlot
  | _ => False

/-- `kexit` wakes the parent first, and makes the process a zombie then. -/
def WaitPc.Woken (pc : WaitPc) (c : Option Slot) : Prop :=
  match pc with
  | .dying _ parent => c = parent
  | _ => False

/-- What `u` sees of a change: its children stay, and none becomes a zombie. -/
theorem Family.Blocked.mono {u : Slot} {c : Option Slot} (h : x.Blocked u c)
    (hkids : ∀ q, x.parent q = some u → y.parent q = some u)
    (hzombie : ∀ q, y.parent q = some u → y.life q = .zombie →
      x.parent q = some u ∧ x.life q = .zombie) : y.Blocked u c := by
  obtain ⟨hc, ⟨q, hq⟩, hz⟩ := h
  refine ⟨hc, ⟨q, hkids q hq⟩, ?_⟩
  intro q' hq' hz'
  obtain ⟨hp, hx⟩ := hzombie q' hq' hz'
  exact hz q' hp hx

/-- What a command of `p` has to do about those who sleep. -/
def WaitPays (p : Slot) (x : Family) (pc : WaitPc) :
    MonitorCmd Family WaitPc (Option Slot) → Prop
  | .update y pc' =>
    (∀ u c, u ≠ p → ¬pc.Woken c → x.Blocked u c → y.Blocked u c ∨ pc'.Owes c) ∧
      ∀ c, ¬pc.Owes c
  | .wakeup c _ => ∀ c', c' ≠ c → ¬pc.Owes c'
  | .wait c _ => x.Blocked p c ∧ ∀ c', ¬pc.Owes c'
  | .release _ => ∀ c', ¬pc.Owes c'

theorem kwait_pays {pp : Slot} {todo : List Slot} {havekids copyout : Bool} :
    WaitPays p x (.wait (pp :: todo) havekids) (kwait p pp todo havekids copyout x) := by
  rw [kwait]
  split
  case isTrue hpp =>
    split
    case isTrue hz =>
      split
      case isTrue =>
        refine ⟨?_, fun _ => id⟩
        intro u c hu _ hb
        have hne {q} (hq : x.parent q = some u) : q ≠ pp := by
          rintro rfl
          rw [hpp] at hq
          exact hu (Option.some.inj hq).symm
        refine .inl (hb.mono ?_ ?_)
        · intro q hq
          exact (Function.update_of_ne (hne hq) _ _).trans hq
        · intro q hq hqz
          by_cases hqpp : q = pp
          · simp [Family.reap, hqpp] at hq
          · simp only [Family.reap, Function.update_of_ne hqpp] at hq hqz
            exact ⟨hq, hqz⟩
      case isFalse => exact ⟨fun _ _ _ _ => .inl, fun _ => id⟩
    case isFalse => exact ⟨fun _ _ _ _ => .inl, fun _ => id⟩
  case isFalse => exact ⟨fun _ _ _ _ => .inl, fun _ => id⟩

theorem waitCode_pays {killed copyout : Bool} (hown : pc.Own p x)
    (hk : pc.Knows p x) {cmd : MonitorCmd Family WaitPc (Option Slot)}
    (hc : waitCode p killed copyout x pc = some cmd) : WaitPays p x pc cmd := by
  cases pc with
  | off | user | forked np | forking np => cases hc
  | setParent np =>
    cases hc
    refine ⟨?_, fun _ => id⟩
    intro u c hu _ hb
    refine .inl (hb.mono ?_ ?_)
    · intro q hq
      have hqn : q ≠ np := by
        rintro rfl
        rw [hown.own.2.1] at hq
        cases hq
      exact (Function.update_of_ne hqn _ _).trans hq
    · intro q hq hqz
      by_cases hqn : q = np
      · simp only [Family.setParent, hqn, Function.update_self] at hq
        exact absurd (Option.some.inj hq).symm hu
      · simp only [Family.setParent, Function.update_of_ne hqn] at hq
        exact ⟨hq, hqz⟩
  | parented np | dead | ret r =>
    cases hc
    exact fun _ => id
  | exit status todo =>
    cases todo with
    | nil =>
      cases hc
      exact fun _ _ => id
    | cons pp todo =>
      rw [waitCode] at hc
      split at hc
      case isTrue hpp =>
        cases hc
        refine ⟨?_, fun _ => id⟩
        intro u c hu _ hb
        -- only `initproc` gets a child, and is owed a wakeup
        by_cases hui : u = initSlot
        · exact .inr (hb.chan.trans (congrArg some hui))
        · refine .inl (hb.mono ?_ ?_)
          · intro q hq
            have hqpp : q ≠ pp := by
              rintro rfl
              rw [hpp] at hq
              exact hu (Option.some.inj hq).symm
            exact (Function.update_of_ne hqpp _ _).trans hq
          · intro q hq hqz
            by_cases hqpp : q = pp
            · simp only [Family.setParent, hqpp, Function.update_self] at hq
              exact absurd (Option.some.inj hq).symm hui
            · simp only [Family.setParent, Function.update_of_ne hqpp] at hq
              exact ⟨hq, hqz⟩
      case isFalse =>
        cases hc
        exact ⟨fun _ _ _ _ => .inl, fun _ => id⟩
  | adopted status todo =>
    cases hc
    exact fun _ => id
  | dying status parent =>
    cases hc
    refine ⟨?_, fun _ => id⟩
    intro u c hu hw hb
    -- the parent has been woken, so this is not the parent
    have hpu : x.parent p ≠ some u := by
      rw [show x.parent p = parent from hk]
      intro hpar
      exact hw (hb.chan.trans hpar.symm)
    refine .inl (hb.mono (fun _ => id) ?_)
    intro q hq hqz
    have hqp : q ≠ p := by
      rintro rfl
      exact hpu hq
    simp only [Family.becomeZombie, Function.update_of_ne hqp] at hqz
    exact ⟨hq, hqz⟩
  | wait todo havekids =>
    cases todo with
    | nil =>
      rw [waitCode] at hc
      split at hc
      case isTrue =>
        cases hc
        exact ⟨fun _ _ _ _ => .inl, fun _ => id⟩
      case isFalse hgo =>
        cases hc
        rw [not_or, Bool.not_eq_false] at hgo
        exact ⟨⟨rfl, hk.2 hgo.1, fun q => hk.1 q List.not_mem_nil⟩, fun _ => id⟩
    | cons pp todo =>
      cases hc
      exact kwait_pays

/-- Only `wakeup` leads to where a channel has been woken, and it is this channel. -/
def WaitWakes : MonitorCmd Family WaitPc (Option Slot) → Prop
  | .update _ pc | .wait _ pc => ∀ c, ¬pc.Woken c
  | .wakeup c pc => ∀ c', c' ≠ c → ¬pc.Woken c'
  | .release _ => True

theorem kwait_wakes {pp : Slot} {todo : List Slot} {havekids copyout : Bool} :
    WaitWakes (kwait p pp todo havekids copyout x) := by
  rw [kwait]
  split
  case isTrue =>
    split
    case isTrue => split <;> exact fun _ => id
    case isFalse => exact fun _ => id
  case isFalse => exact fun _ => id

theorem waitCode_wakes {killed copyout : Bool} {cmd : MonitorCmd Family WaitPc (Option Slot)}
    (hc : waitCode p killed copyout x pc = some cmd) : WaitWakes cmd := by
  cases pc with
  | off | user | forked np | forking np => cases hc
  | setParent np | dying status parent =>
    cases hc
    exact fun _ => id
  | parented np | dead | ret r =>
    cases hc
    trivial
  | exit status todo =>
    cases todo with
    | nil =>
      cases hc
      exact fun _ => id
    | cons pp todo =>
      rw [waitCode] at hc
      split at hc <;> cases hc <;> exact fun _ => id
  | adopted status todo =>
    cases hc
    exact fun _ _ => id
  | wait todo havekids =>
    cases todo with
    | nil =>
      rw [waitCode] at hc
      split at hc <;> cases hc <;> exact fun _ => id
    | cons pp todo =>
      cases hc
      exact kwait_wakes

theorem waitMonitor_woken : WokenSince waitMonitor WaitPc.Woken where
  enter {a t l l'} he c hw := by
    change waitEnter a t l = some l' at he
    rw [waitEnter.eq_def] at he
    split at he
    case h_2 =>
      cases (Option.ite_none_left_eq_some.1 he).2
      exact hw
    all_goals
      cases he
      try exact hw
  update hc c hw := by
    obtain ⟨killed, copyout, hc⟩ := waitMonitor_code hc
    exact absurd hw (waitCode_wakes hc c)
  wakeup hc c' hne hw := by
    obtain ⟨killed, copyout, hc⟩ := waitMonitor_code hc
    exact absurd hw (waitCode_wakes hc c' hne)
  wait hc c' := by
    obtain ⟨killed, copyout, hc⟩ := waitMonitor_code hc
    exact waitCode_wakes hc c'

/-- What holds in every state: what the processes know, and that nobody is left on a
    channel that has been woken. -/
structure Waits.Known (s : Waits) : Prop where
  inv : Knows.Inv Family.Ok (fun p pc x => pc.Own p x) (fun p pc x => pc.Knows p x) s
  quiet : ∀ t pc c, s.place t = .inside pc → pc.Woken c →
    ∀ u lu, (s.place u).Waits c lu → s.chan u ≠ some c

theorem Waits.known_of_reach (h : Reach waitMonitor.step G Waits.init s) : s.Known := by
  refine ⟨waits_inv h, ?_⟩
  intro t pc c hp hw u lu hu
  exact waitMonitor_woken.quiet h hp hw hu

theorem Waits.Known.pays (h : s.Known) (hp : s.place p = .inside pc) {a : WaitIn}
    {cmd : MonitorCmd Family WaitPc (Option Slot)}
    (hc : waitMonitor.code a p pc s.shared = some cmd) : WaitPays p s.shared pc cmd := by
  obtain ⟨killed, copyout, hc⟩ := waitMonitor_code hc
  refine waitCode_pays (h.inv.own_of_loc (hp ▸ rfl)) (h.inv.current p pc ?_) hc
  rw [hp]
  rfl

/-- Who waits for what, and who has to wake it. -/
def waitDiscipline : Discipline waitMonitor Waits.Known fun _ _ _ _ => True where
  blocked x u _ c := x.Blocked u c
  owes _ _ pc c := pc.Owes c
  outside {s a t pc r} hs hp hr := by
    obtain ⟨-, -, -, hparent, hzombie⟩ :=
      waitOutside_keeps hs.inv.always (hs.inv.own_of_loc (hp ▸ rfl)) hr
    refine ⟨?_, fun _ _ _ => id⟩
    intro u _ c hb
    refine hb.mono ?_ ?_
    · rw [hparent]
      exact fun _ => id
    · rw [hparent]
      intro q hq hz
      exact ⟨hq, hzombie q hz⟩
  update {s a t pc y pc'} hs hp _ hc := by
    obtain ⟨hblocked, howes⟩ := hs.pays hp hc
    refine ⟨?_, fun c ho => absurd ho (howes c)⟩
    intro u lu c hu hchan hb
    have hut : u ≠ t := by
      rintro rfl
      rw [hp] at hu
      cases hu
    exact hblocked u c hut (fun hw => hs.quiet t pc c hp hw u lu hu hchan) hb
  wakeup {s a t pc c pc'} hs hp _ hc c' hne ho := absurd ho (hs.pays hp hc c' hne)
  wait hs hp _ hc := hs.pays hp hc
  release hs hp _ hc := hs.pays hp hc

/-- **No exit is missed**: while `wait_lock` is free, a process that sleeps in `kwait` has
    children, and none of them is a zombie. -/
theorem kwait_no_lost_exit (h : Reachable waitMonitor.step Waits.init s) (hlock : s.lock = none)
    {c : Option Slot} (hp : s.place p = .asleep c pc) :
    (∃ q, s.shared.parent q = some p) ∧
      ∀ q, s.shared.parent q = some p → s.shared.life q ≠ .zombie := by
  have hinv := waitDiscipline.waits (fun _ => Waits.known_of_reach) (Monitor.reach_ok h)
  have hblocked : s.shared.Blocked p c := hinv.blocked_of_asleep hlock hp
  exact ⟨hblocked.kids, hblocked.zombie⟩

/-- `initproc` forks a child and waits. -/
def initSleeps : List (MonitorAct Slot WaitIn) :=
  forkChild ++ [.enter 0 .wait] ++ List.replicate 65 (.code 0 (.env false true)) ++
    [.release 0, .sleep 0]

theorem kwait_no_lost_exit_init : ∃ s, Reachable waitMonitor.step Waits.init s ∧
    (∃ c pc, s.place 0 = .asleep c pc) ∧
    ∀ q, s.shared.parent q = some 0 → s.shared.life q ≠ .zombie := by
  have hfacts : (Lib.run waitMonitor.step initSleeps Waits.init).map
      (fun s => (s.lock, s.place 0)) =
        some (none, .asleep (some 0) (.wait (List.finRange nproc) false)) := by decide +kernel
  obtain ⟨s, hs, hfacts⟩ := Option.map_eq_some_iff.1 hfacts
  have hreach := Reachable.of_run _ hs
  have hplace := congrArg Prod.snd hfacts
  exact ⟨s, hreach, ⟨_, _, hplace⟩,
    (kwait_no_lost_exit hreach (congrArg Prod.fst hfacts) hplace).2⟩

end Xv6
