/-
  xv6 formalization — no process is lost or queued twice.

  The invariant of the scheduler: every process is where its state says
  (`Good`), the queues and CPUs are consistent (`Placed`), and the child of a
  pending `kfork` is known to nobody else (`Forks`).  The processes in `W` may
  wait in a queue other than the one of their priority.

  * `Inv.step`: every step of every CPU keeps the invariant, where the sweep
    of `mlfq_boost` may add the process it meets to `W`;
  * `runnable_placed_once`: in every reachable state the queues are lists
    without repetition, and a process is `RUNNABLE` iff it is in exactly one
    queue or taken from it by exactly one CPU.
-/
import CShell.Xv6.Places

namespace Xv6

open Lib

variable {ncpu : ℕ}

/-- The state of a process at the given place. -/
def Suits : Option (Place ncpu) → ProcState → Prop
  | some (.running _), st => st = .running
  | some _, st => st = .runnable
  | none, st => st ≠ .runnable ∧ st ≠ .running

/-- The state and the priority of a process suit its place; `W` may have another priority. -/
structure Good (W : Slot → Prop) (p : Slot) (loc : Option (Place ncpu)) (x : Proc) : Prop where
  suits : Suits loc x.state
  priority : x.priority < 4
  rank : ∀ q, loc = some (.queue q) → q < 4 ∧ (x.priority = q ∨ W p)

/-- The child a process is about to make runnable. -/
def Fork.child : Fork → Option Slot
  | .idle => none
  | .allocated np | .parented np => some np

/-- A child that is not complete belongs to one process that forks. -/
structure Forks (proc : Slot → Proc) : Prop where
  child : ∀ p np, (proc p).fork.child = some np → (proc np).state = .used ∧ (proc np).priority = 0
  owner : ∀ p p' np, (proc p).fork.child = some np → (proc p').fork.child = some np → p = p'

/-- The invariant, with the lists of the queues and the places of the processes. -/
structure Inv (W : Slot → Prop) (s : State ncpu) (L : ℕ → List Slot)
    (loc : Slot → Option (Place ncpu)) : Prop where
  placed : Placed s L loc
  good : ∀ p, Good W p (loc p) (s.proc p)
  forks : Forks s.proc
  reset : ∀ q p, s.boost = .reset q p → (s.proc p).priority = 0

/-- There are lists and places with the invariant. -/
def Consistent (W : Slot → Prop) (s : State ncpu) : Prop := ∃ L loc, Inv W s L loc

variable {W : Slot → Prop} {s s' : State ncpu} {L L' : ℕ → List Slot}
  {loc loc' : Slot → Option (Place ncpu)} {p np : Slot} {c : Fin ncpu} {q : ℕ} {x : Proc}
  {proc : Slot → Proc} {y : Option (Place ncpu)}

/-! ## Pending forks -/

theorem Forks.not_child (h : Forks proc) (hp : (proc p).state ≠ .used) (p' : Slot) :
    (proc p').fork.child ≠ some p :=
  fun hc => hp (h.child p' p hc).1

/-- Only the other fields change. -/
theorem Forks.congr {proc' : Slot → Proc} (h : Forks proc)
    (hsame : ∀ i, (proc' i).state = (proc i).state ∧ (proc' i).priority = (proc i).priority ∧
      (proc' i).fork = (proc i).fork) : Forks proc' := by
  constructor
  · intro i np hnp
    rw [(hsame i).2.2] at hnp
    rw [(hsame np).1, (hsame np).2.1]
    exact h.child i np hnp
  · intro i j np hi hj
    rw [(hsame i).2.2] at hi
    rw [(hsame j).2.2] at hj
    exact h.owner i j np hi hj

/-- A field that a change of a process leaves as it is. -/
theorem update_field {β : Type} (f : Proc → β) (hf : f x = f (proc p)) (i : Slot) :
    f (Function.update proc p x i) = f (proc i) := by
  by_cases hi : i = p
  · rw [hi, Function.update_self, hf]
  · rw [Function.update_of_ne hi]

theorem update_fork (hf : x.fork = (proc p).fork) (i : Slot) :
    (Function.update proc p x i).fork = (proc i).fork := update_field Proc.fork hf i

/-- A process changes, but its own fork does not. -/
theorem Forks.update (h : Forks proc) (hf : x.fork = (proc p).fork)
    (hc : ∀ p', (proc p').fork.child = some p → x.state = .used ∧ x.priority = 0) :
    Forks (Function.update proc p x) := by
  have hfork := update_fork hf
  constructor
  · intro p' i hi
    rw [hfork] at hi
    by_cases hip : i = p
    · subst hip
      rw [Function.update_self]
      exact hc p' hi
    · rw [Function.update_of_ne hip]
      exact h.child p' i hi
  · intro p₁ p₂ i h₁ h₂
    rw [hfork] at h₁ h₂
    exact h.owner p₁ p₂ i h₁ h₂

/-- A process that is nobody's pending child changes. -/
theorem Forks.update_of_ne (h : Forks proc) (hp : (proc p).state ≠ .used)
    (hf : x.fork = (proc p).fork) : Forks (Function.update proc p x) :=
  h.update hf fun p' hc => absurd hc (h.not_child hp p')

/-- A process changes within its state. -/
theorem Forks.update_same (h : Forks proc) (hf : x.fork = (proc p).fork)
    (hst : x.state = (proc p).state)
    (hpr : (proc p).priority = 0 → x.priority = 0) : Forks (Function.update proc p x) :=
  h.update hf fun p' hc =>
    ⟨hst.trans (h.child p' p hc).1, hpr (h.child p' p hc).2⟩

/-- A process starts, goes on with or ends a fork. -/
theorem Forks.setFork (h : Forks proc) {f : Fork}
    (hf : ∀ np, f.child = some np → ((proc np).state = .used ∧ (proc np).priority = 0) ∧
      ∀ p', (proc p').fork.child = some np → p' = p) :
    Forks (Function.update proc p { proc p with fork := f }) := by
  have hst : ∀ i, (Function.update proc p { proc p with fork := f } i).state = (proc i).state ∧
      (Function.update proc p { proc p with fork := f } i).priority = (proc i).priority := by
    intro i
    by_cases hi : i = p
    · subst hi
      rw [Function.update_self]
      exact ⟨rfl, rfl⟩
    · rw [Function.update_of_ne hi]
      exact ⟨rfl, rfl⟩
  constructor
  · intro p' i hi
    rw [(hst i).1, (hst i).2]
    by_cases hp : p' = p
    · subst hp
      rw [Function.update_self] at hi
      exact (hf i hi).1
    · rw [Function.update_of_ne hp] at hi
      exact h.child p' i hi
  · intro p₁ p₂ i h₁ h₂
    by_cases hp₁ : p₁ = p <;> by_cases hp₂ : p₂ = p
    · rw [hp₁, hp₂]
    · subst hp₁
      rw [Function.update_self] at h₁
      rw [Function.update_of_ne hp₂] at h₂
      exact ((hf i h₁).2 p₂ h₂).symm
    · subst hp₂
      rw [Function.update_self] at h₂
      rw [Function.update_of_ne hp₁] at h₁
      exact (hf i h₂).2 p₁ h₁
    · rw [Function.update_of_ne hp₁] at h₁
      rw [Function.update_of_ne hp₂] at h₂
      exact h.owner p₁ p₂ i h₁ h₂

/-! ## One process changes -/

namespace Inv

theorem running (h : Inv W s L loc) (hc : s.cpu c = .running p) :
    loc p = some (.running c) ∧ (s.proc p).state = .running := by
  have hloc : loc p = some (.running c) := (h.placed.at_iff (.running c) p).1 hc
  have hst := (h.good p).suits
  rw [hloc] at hst
  exact ⟨hloc, hst⟩

/-- A process that is neither runnable nor running is nowhere. -/
theorem nowhere (h : Inv W s L loc) (hr : (s.proc p).state ≠ .runnable)
    (hr' : (s.proc p).state ≠ .running) : loc p = none := by
  have hst := (h.good p).suits
  rcases hloc : loc p with _ | x
  · rfl
  · rw [hloc] at hst
    cases x with
    | running c => exact absurd hst hr'
    | queue q => exact absurd hst hr
    | scheduler c => exact absurd hst hr
    | boost => exact absurd hst hr

/-- A process waiting at a place is runnable. -/
theorem runnable (h : Inv W s L loc) {z : Place ncpu} (hp : loc p = some z) (hz : z.Waiting) :
    (s.proc p).state = .runnable := by
  have hst := (h.good p).suits
  rw [hp] at hst
  cases z with
  | running c => exact absurd hz id
  | queue q => exact hst
  | scheduler c => exact hst
  | boost => exact hst

/-- **A process moves and changes.** -/
theorem change (h : Inv W s L loc) (hx : Good W p y x)
    (hfork : Forks (Function.update s.proc p x)) (hP : Placed s' L' (Function.update loc p y))
    (hproc : s'.proc = Function.update s.proc p x)
    (hb : ∀ q i, s'.boost = .reset q i → i ≠ p ∧ s.boost = .reset q i) : Consistent W s' := by
  refine ⟨L', _, hP, fun i => ?_, hproc ▸ hfork, fun q i hi => ?_⟩
  · rw [hproc]
    by_cases hip : i = p
    · subst hip
      rw [Function.update_self, Function.update_self]
      exact hx
    · rw [Function.update_of_ne hip, Function.update_of_ne hip]
      exact h.good i
  · rw [hproc, Function.update_of_ne (hb q i hi).1]
    exact h.reset q i (hb q i hi).2

/-- The process `mlfq_boost` has raised is not one that is elsewhere. -/
theorem reset_ne (h : Inv W s L loc) (hloc : loc p ≠ some .boost) (q : ℕ) (i : Slot)
    (hi : s.boost = .reset q i) : i ≠ p ∧ s.boost = .reset q i := by
  refine ⟨?_, hi⟩
  rintro rfl
  have hat : s.At L .boost i := by simp [State.At, hi, Boost.taken]
  exact hloc ((h.placed.at_iff _ _).1 hat)

/-- A process moves as it is. -/
theorem move (h : Inv W s L loc) (hy : Good W p y (s.proc p))
    (hP : Placed s' L' (Function.update loc p y)) (hproc : s'.proc = s.proc)
    (hb : ∀ q i, s'.boost = .reset q i → i ≠ p ∧ s.boost = .reset q i) : Consistent W s' := by
  refine h.change (x := s.proc p) hy ?_ hP ?_ hb
  · rw [Function.update_eq_self]
    exact h.forks
  · rw [Function.update_eq_self, hproc]

/-- A process changes where it is. -/
theorem setProc (h : Inv W s L loc) (hx : Good W p (loc p) x)
    (hfork : Forks (Function.update s.proc p x))
    (hpr : loc p = some .boost → (s.proc p).priority = 0 → x.priority = 0) :
    Inv W (s.setProc p x) L loc := by
  refine ⟨h.placed.congr (fun _ _ _ => rfl) rfl rfl rfl, fun i => ?_, hfork, fun q i hi => ?_⟩
  · simp only [State.setProc]
    by_cases hip : i = p
    · subst hip
      rw [Function.update_self]
      exact hx
    · rw [Function.update_of_ne hip]
      exact h.good i
  · simp only [State.setProc] at hi ⊢
    by_cases hip : i = p
    · subst hip
      have hat : s.At L .boost i := by simp [State.At, hi, Boost.taken]
      rw [Function.update_self]
      exact hpr ((h.placed.at_iff _ _).1 hat) (h.reset q i hi)
    · rw [Function.update_of_ne hip]
      exact h.reset q i hi

/-- What the scheduler reads of a process stays the same. -/
theorem touch (h : Inv W s L loc) (hst : x.state = (s.proc p).state)
    (hpr : x.priority = (s.proc p).priority) (hf : x.fork = (s.proc p).fork) :
    Inv W (s.setProc p x) L loc := by
  have hp := h.good p
  refine h.setProc ⟨hst ▸ hp.suits, hpr ▸ hp.priority, fun q hq => hpr ▸ hp.rank q hq⟩
    (h.forks.update_same hf hst fun h0 => hpr.trans h0) fun _ h0 => hpr.trans h0

/-- **A process that is nowhere becomes runnable** and enters the queue of its
    priority. -/
theorem makeRunnable (h : Inv W s L loc) (hp : loc p = none) (hq : (s.proc p).priority = q)
    (hc : ∀ p', (s.proc p').fork.child ≠ some p) : Consistent W (s.makeRunnable q p) := by
  have hpr := (h.good p).priority
  refine h.change (y := some (.queue q)) (x := { s.proc p with state := .runnable })
    ⟨rfl, hpr, ?_⟩ (h.forks.update rfl fun p' hp' => absurd hp' (hc p'))
    ((h.placed.enqueue hp).congr (fun _ _ _ => rfl) rfl rfl rfl) rfl (h.reset_ne ?_)
  · rintro q' ⟨⟩
    exact ⟨hq ▸ hpr, .inl hq⟩
  · rw [hp]; nofun

theorem setBoost (h : Inv W s L loc) {b : Boost} (hb : b.taken = s.boost.taken)
    (hr : ∀ q p, b = .reset q p → (s.proc p).priority = 0) :
    Inv W { s with boost := b } L loc :=
  ⟨h.placed.congr (fun _ _ _ => rfl) rfl rfl hb, h.good, h.forks, hr⟩

/-- The link of a process that is nowhere is cleared. -/
theorem clearNext (h : Inv W s L loc) (hp : loc p = none) (n : ℕ) :
    Inv W { s with next := Function.update s.next p none, nextpid := n } L loc := by
  refine ⟨h.placed.congr (fun i q hi => Function.update_of_ne ?_ ..) rfl rfl rfl, h.good, h.forks,
    h.reset⟩
  rintro rfl
  cases hp.symm.trans hi

/-- An unused process is allocated. -/
theorem allocproc (h : Inv W s L loc) (hp : (s.proc p).state = .unused) :
    loc p = none ∧ Inv W (s.allocproc p) L loc ∧
      ∀ p', ((s.allocproc p).proc p').fork.child ≠ some p := by
  have hloc : loc p = none := h.nowhere (by rw [hp]; nofun) (by rw [hp]; nofun)
  refine ⟨hloc, clearNext (h.setProc ⟨?_, Nat.zero_lt_succ 3, ?_⟩ ?_ ?_) hloc _, fun p' hp' => ?_⟩
  · rw [hloc]
    exact ⟨nofun, nofun⟩
  · rw [hloc]; nofun
  · exact h.forks.update_of_ne (by rw [hp]; nofun) rfl
  · exact fun _ _ => rfl
  · refine h.forks.not_child (by rw [hp]; nofun) p' ?_
    by_cases hpp : p' = p
    · subst hpp
      simpa [State.allocproc, State.setProc] using hp'
    · simpa [State.allocproc, State.setProc, hpp] using hp'

/-- A process that is nowhere, and nobody's pending child, is freed. -/
theorem freeproc (h : Inv W s L loc) (hp : loc p = none)
    (hc : ∀ p', (s.proc p').fork.child ≠ some p) : Inv W (s.freeproc p) L loc := by
  refine clearNext (h.setProc ⟨?_, Nat.zero_lt_succ 3, ?_⟩ ?_ ?_) hp _
  · rw [hp]
    exact ⟨nofun, nofun⟩
  · rw [hp]; nofun
  · exact h.forks.update rfl fun p' hp' => absurd hp' (hc p')
  · exact fun _ _ => rfl

theorem setFork (h : Inv W s L loc) {f : Fork}
    (hf : ∀ np, f.child = some np → ((s.proc np).state = .used ∧ (s.proc np).priority = 0) ∧
      ∀ p', (s.proc p').fork.child = some np → p' = p) :
    Inv W (s.setProc p { s.proc p with fork := f }) L loc :=
  have hp := h.good p
  h.setProc ⟨hp.suits, hp.priority, hp.rank⟩ (h.forks.setFork hf) fun _ => id

theorem mark (h : Inv W s L loc) {op : Op} (hm : Marks s op p x) :
    Inv W (s.setProc p x) L loc := by
  refine h.touch ?_ ?_ ?_ <;> cases hm <;> rfl

/-- A process that sleeps is marked and put into the queue of its priority. -/
theorem wake (h : Inv W s L loc) {op : Op} (hm : Marks s op p x)
    (hst : (s.proc p).state = .sleeping) :
    Consistent W ((s.setProc p x).makeRunnable x.priority p) := by
  have h' := h.mark hm
  have hx : (s.setProc p x).proc p = x := Function.update_self ..
  refine h'.makeRunnable (h'.nowhere ?_ ?_) (by rw [hx]) (h'.forks.not_child ?_) <;>
    rw [hx, hm.state, hst] <;> nofun

/-! ## The steps of the CPUs -/

theorem reparent (h : Inv W s L loc) (p : Slot) : Inv W (s.reparent p) L loc := by
  have hsame : ∀ i, ((s.reparent p).proc i).state = (s.proc i).state ∧
      ((s.reparent p).proc i).priority = (s.proc i).priority ∧
      ((s.reparent p).proc i).fork = (s.proc i).fork := by
    intro i
    simp only [State.reparent]
    split <;> exact ⟨rfl, rfl, rfl⟩
  refine ⟨h.placed.congr (fun _ _ _ => rfl) rfl rfl rfl, fun i => ?_, h.forks.congr hsame,
    fun q i hi => ?_⟩
  · have hi := h.good i
    obtain ⟨hst, hpr, -⟩ := hsame i
    exact ⟨hst ▸ hi.suits, hpr ▸ hi.priority, fun q hq => hpr ▸ hi.rank q hq⟩
  · rw [(hsame i).2.1]
    exact h.reset q i hi

/-- A CPU takes the first process of a queue. -/
theorem deque (h : Inv W s L loc) (hc : s.cpu c = .looking q) (hd : s.deque q = some (p, s')) :
    Consistent W (s'.setCpu c (.holding p)) := by
  obtain ⟨hloc, hP, queues, next, rfl⟩ := h.placed.deque hd
  have hP' := hP.hold (c := c) (congrArg Cpu.proc hc) (Function.update_self ..)
  rw [Function.update_idem] at hP'
  refine h.move (y := some (.scheduler c)) ⟨h.runnable hloc trivial, (h.good p).priority, nofun⟩
    hP' rfl (h.reset_ne ?_)
  rw [hloc]; nofun

/-- A CPU runs the process it has taken, which is runnable. -/
theorem dispatch (h : Inv W s L loc) (hc : s.cpu c = .holding p) :
    (s.proc p).state = .runnable ∧
      Consistent W ((s.setProc p { s.proc p with state := .running }).setCpu c (.running p)) := by
  have hloc : loc p = some (.scheduler c) := (h.placed.at_iff (.scheduler c) p).1 hc
  have hst := h.runnable hloc trivial
  refine ⟨hst, h.change (y := some (.running c)) (x := { s.proc p with state := .running })
    ⟨rfl, (h.good p).priority, nofun⟩ (h.forks.update_of_ne (by rw [hst]; nofun) rfl)
    ((h.placed.run hc).congr (fun _ _ _ => rfl) rfl rfl rfl) rfl (h.reset_ne ?_)⟩
  rw [hloc]; nofun

theorem yield (h : Inv W s L loc) (hc : s.cpu c = .running p) :
    Consistent W ((s.makeRunnable (s.proc p).priority p).setCpu c (.looking 0)) := by
  obtain ⟨hloc, hst⟩ := h.running hc
  have hpr := (h.good p).priority
  have hP := (h.placed.leave (y := .looking 0) (congrArg Cpu.proc hc) rfl).enqueue (p := p)
    (q := (s.proc p).priority) (Function.update_self ..)
  rw [Function.update_idem] at hP
  refine h.change (y := some (.queue (s.proc p).priority))
    (x := { s.proc p with state := .runnable }) ⟨rfl, hpr, ?_⟩
    (h.forks.update_of_ne (by rw [hst]; nofun) rfl)
    (hP.congr (fun _ _ _ => rfl) rfl rfl rfl) rfl (h.reset_ne ?_)
  · rintro q ⟨⟩
    exact ⟨hpr, .inl rfl⟩
  · rw [hloc]; nofun

/-- The running process gives up its CPU and is not runnable any more. -/
theorem stop (h : Inv W s L loc) (hc : s.cpu c = .running p) {st : ProcState}
    (hst : st ≠ .runnable ∧ st ≠ .running) :
    Consistent W ((s.setProc p { s.proc p with state := st }).setCpu c (.looking 0)) := by
  obtain ⟨hloc, hrun⟩ := h.running hc
  have hP := h.placed.leave (y := .looking 0) (congrArg Cpu.proc hc) rfl
  refine h.change (y := none) (x := { s.proc p with state := st }) ⟨hst, (h.good p).priority, nofun⟩
    (h.forks.update_of_ne (by rw [hrun]; nofun) rfl)
    (hP.congr (fun _ _ _ => rfl) rfl rfl rfl) rfl (h.reset_ne ?_)
  rw [hloc]; nofun

end Inv

theorem Proc.tick_priority (x : Proc) (hx : x.priority < 4) : x.tick.priority < 4 := by
  unfold Proc.tick
  split
  · simp only
    split <;> omega
  · exact hx

theorem Proc.tick_state (x : Proc) : x.tick.state = x.state ∧ x.tick.fork = x.fork := by
  unfold Proc.tick
  split <;> exact ⟨rfl, rfl⟩

namespace Inv

/-- A tick changes the priority of a running process only. -/
theorem tick (h : Inv W s L loc) (hc : s.cpu c = .running p) :
    Inv W (s.setProc p (s.proc p).tick) L loc := by
  obtain ⟨hloc, hst⟩ := h.running hc
  obtain ⟨htick, hf⟩ := (s.proc p).tick_state
  refine h.setProc ⟨?_, (s.proc p).tick_priority (h.good p).priority, ?_⟩
    (h.forks.update_of_ne (by rw [hst]; nofun) hf) ?_
  · rw [htick]
    exact (h.good p).suits
  · rw [hloc]; nofun
  · rw [hloc]; nofun

/-- The slot `kfork` finds becomes a pending child, or is freed again. -/
theorem alloc (h : Inv W s L loc) (hu : (s.proc np).state = .unused) :
    Inv W ((s.allocproc np).setProc p { (s.allocproc np).proc p with fork := .allocated np }) L loc ∧
      Inv W ((s.allocproc np).freeproc np) L loc := by
  obtain ⟨hloc, h', hc⟩ := h.allocproc hu
  refine ⟨h'.setFork ?_, h'.freeproc hloc hc⟩
  rintro i ⟨⟩
  refine ⟨?_, fun p' hp' => absurd hp' (hc p')⟩
  simp [State.allocproc, State.setProc]

theorem setParent (h : Inv W s L loc) (hf : (s.proc p).fork.child = some np) :
    Inv W ((s.setProc np { s.proc np with parent := some p }).setProc p
      { (s.setProc np { s.proc np with parent := some p }).proc p with fork := .parented np })
      L loc := by
  have h' : Inv W (s.setProc np { s.proc np with parent := some p }) L loc := h.touch rfl rfl rfl
  have hf' : ((s.setProc np { s.proc np with parent := some p }).proc p).fork.child = some np := by
    by_cases hp : p = np
    · subst hp
      simpa [State.setProc] using hf
    · simpa [State.setProc, hp] using hf
  refine h'.setFork ?_
  rintro i ⟨⟩
  exact ⟨h'.forks.child p np hf', fun p' hp' => h'.forks.owner p' p np hp' hf'⟩

/-- The child of a fork enters queue 0. -/
theorem forkDone (h : Inv W s L loc) (hf : (s.proc p).fork.child = some np) :
    Consistent W ((s.setProc p { s.proc p with fork := .idle }).makeRunnable 0 np) := by
  have h' : Inv W (s.setProc p { s.proc p with fork := .idle }) L loc := h.setFork nofun
  obtain ⟨hst, hpr⟩ := h.forks.child p np hf
  refine h'.makeRunnable (h.nowhere (by rw [hst]; nofun) (by rw [hst]; nofun)) ?_ fun p' hp' => ?_
  · by_cases hp : np = p
    · subst hp
      simpa [State.setProc] using hpr
    · simpa [State.setProc, hp] using hpr
  · by_cases hp : p' = p
    · subst hp
      simp [State.setProc, Fork.child] at hp'
    · simp only [State.setProc, Function.update_of_ne hp] at hp'
      exact hp (h.forks.owner p' p np hp' hf)

theorem reap (h : Inv W s L loc) (hz : (s.proc p).state = .zombie) :
    Inv W ((s.setProc p { s.proc p with parent := none }).freeproc p) L loc := by
  have h' : Inv W (s.setProc p { s.proc p with parent := none }) L loc := h.touch rfl rfl rfl
  refine h'.freeproc (h.nowhere (by rw [hz]; nofun) (by rw [hz]; nofun)) (h'.forks.not_child ?_)
  simp [State.setProc, hz]

end Inv

/-- **A step of a CPU keeps the invariant.** -/
theorem Inv.perform (h : Inv W s L loc) {op : Op} (hb : c.val = 0 → s.boost.allows op = true)
    (hs : s.perform c op = some s') : Consistent W s' := by
  cases performs_of_perform hs with
  | userinit _ hu =>
    obtain ⟨hloc, h', hc⟩ := h.allocproc hu
    obtain ⟨L', loc', h''⟩ := h'.makeRunnable (q := 0) hloc (by simp [State.allocproc, State.setProc]) hc
    exact ⟨L', loc', h''.placed.congr (fun _ _ _ => rfl) rfl rfl rfl, h''.good, h''.forks, h''.reset⟩
  | took hc hd => exact h.deque hc hd
  | empty hc _ => exact ⟨L, loc, h.placed.look (congrArg Cpu.proc hc) rfl, h.good, h.forks, h.reset⟩
  | dispatch hc _ => exact (h.dispatch hc).2
  | dropped hc hst => exact absurd (h.dispatch hc).1 hst
  | yield hc => exact h.yield hc
  | sleepPrepare _ _ => exact ⟨L, loc, h.touch rfl rfl rfl⟩
  | missed _ _ => exact ⟨L, loc, h⟩
  | sleep hc _ => exact h.stop hc ⟨nofun, nofun⟩
  | @kexit p hc _ _ => exact (h.reparent p).stop hc ⟨nofun, nofun⟩
  | alloc _ hu _ => exact ⟨L, loc, (h.alloc hu).1⟩
  | @allocFailed p _ _ hu _ => exact ⟨L, loc, (h.alloc (p := p) hu).2⟩
  | setParent _ hf => exact ⟨L, loc, h.setParent (congrArg Fork.child hf)⟩
  | forkDone _ hf => exact h.forkDone (congrArg Fork.child hf)
  | reap _ _ hz => exact ⟨L, loc, h.reap hz⟩
  | notChan _ | notPid _ => exact ⟨L, loc, h⟩
  | awake hm _ => exact ⟨L, loc, h.mark hm⟩
  | woken hm hst => exact h.wake hm hst
  | tick hc => exact ⟨L, loc, h.tick hc⟩
  | clock hc =>
    have hoff : s.boost = .off := by
      have := hb hc
      revert this
      cases s.boost <;> simp [Boost.allows]
    refine ⟨L, loc, h.placed.congr (fun _ _ _ => rfl) rfl rfl ?_, h.good, h.forks, fun q p hp => ?_⟩
    · rw [hoff]
      simp only
      split <;> rfl
    · simp only at hp
      split at hp <;> cases hp

/-! ## The steps of the boost -/

namespace Inv

theorem taken (h : Inv W s L loc) (hb : s.boost.taken = some p) :
    loc p = some .boost ∧ (s.proc p).state = .runnable := by
  have hloc : loc p = some .boost := (h.placed.at_iff .boost p).1 hb
  exact ⟨hloc, h.runnable hloc trivial⟩

/-- The boost takes the first process of a queue. -/
theorem boostTake (h : Inv W s L loc) (hb : s.boost.taken = none) (hd : s.deque q = some (p, s')) :
    Consistent W { s' with boost := .took q p } := by
  obtain ⟨hloc, hP, queues, next, rfl⟩ := h.placed.deque hd
  have hP' := hP.take (b := .took q p) hb (Function.update_self ..) rfl
  rw [Function.update_idem] at hP'
  exact h.move (y := some .boost) ⟨h.runnable hloc trivial, (h.good p).priority, nofun⟩ hP' rfl nofun

/-- The boost resets the priority of the process it has taken. -/
theorem boostRaise (h : Inv W s L loc) (hb : s.boost = .took q p) :
    Inv W { s.setProc p (s.proc p).raise with boost := .reset q p } L loc := by
  obtain ⟨hloc, hst⟩ := h.taken (congrArg Boost.taken hb)
  have h' : Inv W (s.setProc p (s.proc p).raise) L loc := by
    refine h.setProc ⟨(h.good p).suits, Nat.zero_lt_succ 3, ?_⟩
      (h.forks.update_of_ne (by rw [hst]; nofun) rfl) fun _ _ => rfl
    rw [hloc]; nofun
  refine h'.setBoost (congrArg Boost.taken hb).symm ?_
  rintro q' p' ⟨⟩
  simp [State.setProc, Proc.raise]

/-- The boost puts the process into queue 0. -/
theorem boostPut (h : Inv W s L loc) (hb : s.boost = .reset q p) :
    Consistent W { s.enqueue 0 p with boost := .drain q } := by
  obtain ⟨hloc, hst⟩ := h.taken (congrArg Boost.taken hb)
  have hP := (h.placed.drop (b := .drain q) (congrArg Boost.taken hb) rfl).enqueue (p := p)
    (q := 0) (Function.update_self ..)
  rw [Function.update_idem] at hP
  refine h.move (y := some (.queue 0)) ⟨hst, (h.good p).priority, ?_⟩
    (hP.congr (fun _ _ _ => rfl) rfl rfl rfl) rfl nofun
  rintro q' ⟨⟩
  exact ⟨Nat.zero_lt_succ 3, .inl (h.reset q p hb)⟩

/-- The second loop of the boost resets the priority of a process where it is. -/
theorem sweep (h : Inv W s L loc) (hw : ∀ q, loc p = some (.queue q) → q = 0 ∨ W p) :
    Inv W (s.setProc p (s.proc p).raise) L loc :=
  h.setProc ⟨(h.good p).suits, Nat.zero_lt_succ 3, fun q hq =>
      ⟨((h.good p).rank q hq).1, (hw q hq).imp_left Eq.symm⟩⟩
    (h.forks.update_same rfl rfl fun _ => rfl) fun _ _ => rfl

/-- **A step of `mlfq_boost` keeps the invariant**, but for the process its
    second loop meets in a queue other than queue 0. -/
theorem boostStep (h : Inv W s L loc)
    (hw : ∀ i q, s.boost = .sweep i → loc i = some (.queue q) → q = 0 ∨ W i)
    (hs : s.boostStep = some s') : Consistent W s' := by
  cases boosts_of_boostStep hs with
  | start hb => exact ⟨L, loc, h.setBoost (by rw [hb]; rfl) nofun⟩
  | took hb hd => exact h.boostTake (congrArg Boost.taken hb) hd
  | emptied hb _ =>
    refine ⟨L, loc, h.setBoost ?_ fun q' p hp => ?_⟩
    · rw [hb]
      split <;> rfl
    · split at hp <;> cases hp
  | raised hb _ => exact ⟨L, loc, h.boostRaise hb⟩
  | skipped hb hst => exact absurd (h.taken (congrArg Boost.taken hb)).2 hst
  | put hb => exact h.boostPut hb
  | @swept i hb =>
    refine ⟨L, loc, (h.sweep fun q => hw i q hb).setBoost ?_ fun q p hp => ?_⟩
    · simp only [State.setProc, hb]
      split <;> rfl
    · split at hp <;> cases hp

end Inv

/-- **Every step keeps the invariant.** -/
theorem Inv.step (h : Inv W s L loc) {a : Act ncpu}
    (hw : ∀ i q, a = .boost → s.boost = .sweep i → loc i = some (.queue q) → q = 0 ∨ W i)
    (hs : s.step a = some s') : Consistent W s' := by
  cases a with
  | on c op =>
    obtain ⟨hb, hs⟩ := Option.ite_none_left_eq_some.1 hs
    exact h.perform (fun hc => by simpa [hc] using hb) hs
  | boost => exact h.boostStep (fun i q => hw i q rfl) hs

theorem inv_init : Inv W (State.init : State ncpu) (fun _ => []) fun _ => none where
  placed := placed_init
  good _ := ⟨⟨nofun, nofun⟩, Nat.zero_lt_succ 3, nofun⟩
  forks := ⟨nofun, nofun⟩
  reset := nofun

theorem consistent_of_reachable (h : Reachable State.step (State.init : State ncpu) s) :
    Consistent (fun _ => True) s := by
  refine h.invariant ⟨_, _, inv_init⟩ ?_
  rintro s a s' ⟨L, loc, hI⟩ - hs
  exact hI.step (fun _ _ _ _ _ => .inr trivial) hs

/-! ## Processes are queued once -/

/-- What the queues, with the contents `L`, and the process table must be. -/
structure Scheduled (s : State ncpu) (L : ℕ → List Slot) : Prop where
  /-- the queues are lists of different processes -/
  list : ∀ q < 4, IsQueue s.next (s.queues q) (L q)
  ends : ∀ q < 4, ((s.queues q).head = none ↔ (s.queues q).tail = none) ∧
    ∀ t, (s.queues q).tail = some t → s.next t = none
  /-- no process is in two queues, taken twice, or run by two CPUs -/
  once : ∀ x y p, s.At L x p → s.At L y p → x = y
  queued : ∀ q < 4, ∀ p ∈ L q, (s.proc p).state = .runnable
  /-- no process is lost -/
  runnable : ∀ p, (s.proc p).state = .runnable →
    (∃ q < 4, p ∈ L q) ∨ (∃ c, s.cpu c = .holding p) ∨ s.boost.taken = some p
  running : ∀ p, (s.proc p).state = .running ↔ ∃ c, s.cpu c = .running p
  /-- `scheduler` and `mlfq_boost` find the process they have taken runnable -/
  holding : ∀ c p, s.cpu c = .holding p → (s.proc p).state = .runnable
  taken : ∀ p, s.boost.taken = some p → (s.proc p).state = .runnable

theorem Inv.scheduled (h : Inv W s L loc) : Scheduled s L where
  list q _ := h.placed.queue q
  ends q _ := ⟨(h.placed.queue q).head_eq_none_iff, fun _ => (h.placed.queue q).next_tail⟩
  once x y p := h.placed.place_unique
  queued q _ p hp := h.runnable ((h.placed.at_iff (.queue q) p).1 hp) trivial
  runnable p hp := by
    have hst := (h.good p).suits
    rw [hp] at hst
    rcases hloc : loc p with _ | x
    · rw [hloc] at hst
      exact absurd rfl hst.1
    · have hx := (h.placed.at_iff x p).2 hloc
      cases x with
      | queue q => exact .inl ⟨q, ((h.good p).rank q hloc).1, hx⟩
      | scheduler c => exact .inr (.inl ⟨c, hx⟩)
      | boost => exact .inr (.inr hx)
      | running c =>
        rw [hloc] at hst
        cases hst
  running p := by
    refine ⟨fun hp => ?_, fun ⟨c, hc⟩ => (h.running hc).2⟩
    have hst := (h.good p).suits
    rw [hp] at hst
    rcases hloc : loc p with _ | x
    · rw [hloc] at hst
      exact absurd rfl hst.2
    · rw [hloc] at hst
      cases x with
      | running c => exact ⟨c, (h.placed.at_iff (.running c) p).2 hloc⟩
      | queue q => cases hst
      | scheduler c => cases hst
      | boost => cases hst
  holding c p hc := h.runnable ((h.placed.at_iff (.scheduler c) p).1 hc) trivial
  taken p hp := h.runnable ((h.placed.at_iff .boost p).1 hp) trivial

/-- **In every reachable state the queues are lists, and every runnable
    process is in exactly one queue or taken from it exactly once**, for any
    number of CPUs. -/
theorem runnable_placed_once (h : Reachable State.step (State.init : State ncpu) s) :
    ∃ L, Scheduled s L := by
  obtain ⟨L, loc, hI⟩ := consistent_of_reachable h
  exact ⟨L, hI.scheduled⟩

/-- The CPUs of a machine of two. -/
abbrev cpu0 : Fin 2 := 0
/-- The other CPU. -/
abbrev cpu1 : Fin 2 := 1

/-- Two CPUs: the first process is dispatched by CPU 1, forks, and is
    preempted while CPU 0 takes the child. -/
def forkRun : List (Act 2) :=
  [.on 0 .userinit, .on 1 .deque, .on 1 .dispatch, .on 1 (.alloc 1 true), .on 1 .setParent,
    .on 1 .forkDone, .on 0 .deque, .on 1 .yield]

theorem runnable_placed_once_fork :
    ∃ s, run State.step forkRun State.init = some s ∧
      s.cpu 0 = .holding 1 ∧ (s.queues 0).head = some 0 ∧ ∃ L, Scheduled s L :=
  ⟨_, rfl, rfl, rfl, runnable_placed_once (Reachable.of_run forkRun rfl)⟩

end Xv6
