/-
  xv6 formalization — where a process is.

  A process that can run is in one place: in a queue, taken from it by the
  scheduler of a CPU or by `mlfq_boost`, or running on a CPU.  `Placed` says
  that the queues are lists and that no process is in two places; it does not
  read the process table.  Every operation on the queues and the CPUs moves
  one process (`Placed.enqueue`, `Placed.deque`, `Placed.leave`, ...), and the
  steps of the kernel are put together from these.
-/
import CShell.Xv6.Mlfq

namespace Xv6

open Lib

variable {ncpu : ℕ}

/-- Where a process that is runnable or runs can be. -/
inductive Place (ncpu : ℕ) where
  | queue (q : ℕ)
  /-- taken by the scheduler of the CPU -/
  | scheduler (c : Fin ncpu)
  /-- taken by `mlfq_boost` -/
  | boost
  | running (c : Fin ncpu)
  deriving DecidableEq, Repr

/-- A process in this place waits for a CPU. -/
def Place.Waiting : Place ncpu → Prop
  | .running _ => False
  | _ => True

/-- The process `mlfq_boost` has taken from a queue. -/
def Boost.taken : Boost → Option Slot
  | .took _ p | .reset _ p => some p
  | _ => none

/-- The process a CPU has taken or runs. -/
def Cpu.proc : Cpu → Option Slot
  | .looking _ => none
  | .holding p | .running p => some p

/-- The process `p` is at the place, where `L` are the contents of the queues. -/
def State.At (s : State ncpu) (L : ℕ → List Slot) : Place ncpu → Slot → Prop
  | .queue q, p => p ∈ L q
  | .scheduler c, p => s.cpu c = .holding p
  | .boost, p => s.boost.taken = some p
  | .running c, p => s.cpu c = .running p

/-- The queues hold the lists `L`, and `loc` is where each process is. -/
structure Placed (s : State ncpu) (L : ℕ → List Slot) (loc : Slot → Option (Place ncpu)) :
    Prop where
  queue : ∀ q, IsQueue s.next (s.queues q) (L q)
  at_iff : ∀ x p, s.At L x p ↔ loc p = some x

variable {s s' : State ncpu} {L L' : ℕ → List Slot} {loc : Slot → Option (Place ncpu)}
  {p : Slot} {c : Fin ncpu} {q : ℕ}

theorem placed_init : Placed (State.init : State ncpu) (fun _ => []) fun _ => none where
  queue _ := .nil _
  at_iff x p := by cases x <;> simp [State.At, State.init, Boost.taken]

namespace Placed

/-- Links of processes that are in no queue do not matter. -/
theorem congr (h : Placed s L loc) (hn : ∀ p q, loc p = some (.queue q) → s'.next p = s.next p)
    (hq : s'.queues = s.queues) (hc : s'.cpu = s.cpu) (hb : s'.boost.taken = s.boost.taken) :
    Placed s' L loc where
  queue q := by
    rw [hq]
    exact (h.queue q).congr fun p hp => hn p q ((h.at_iff (.queue q) p).1 hp)
  at_iff x p := by
    rw [← h.at_iff]
    cases x <;> simp only [State.At, hc, hb]

/-- One process moves. -/
theorem at_iff_update (h : Placed s L loc) {new : Option (Place ncpu)}
    (hp : ∀ x, s'.At L' x p ↔ new = some x)
    (hne : ∀ x p', p' ≠ p → (s'.At L' x p' ↔ s.At L x p')) (x : Place ncpu) (p' : Slot) :
    s'.At L' x p' ↔ Function.update loc p new p' = some x := by
  by_cases hpp : p' = p
  · rw [hpp, Function.update_self, hp]
  · rw [Function.update_of_ne hpp, hne x p' hpp, h.at_iff]

theorem place_unique (h : Placed s L loc) {x y : Place ncpu} (hx : s.At L x p)
    (hy : s.At L y p) : x = y :=
  Option.some.inj (((h.at_iff x p).1 hx).symm.trans ((h.at_iff y p).1 hy))

theorem areQueues (h : Placed s L loc) : AreQueues s.next s.queues L := by
  refine ⟨h.queue, fun q q' x hx hx' => ?_⟩
  exact Place.queue.inj (h.place_unique (x := .queue q) (y := .queue q') hx hx')

theorem not_at (h : Placed s L loc) (hp : loc p = none) (x : Place ncpu) : ¬s.At L x p :=
  fun hx => nomatch ((h.at_iff x p).1 hx).symm.trans hp

/-! ## The queues -/

/-- **A process enters a queue.** -/
theorem enqueue (h : Placed s L loc) (hp : loc p = none) :
    Placed (s.enqueue q p) (Function.update L q (L q ++ [p]))
      (Function.update loc p (some (.queue q))) := by
  have hfree : ∀ q', p ∉ L q' := fun q' => h.not_at hp (.queue q')
  refine ⟨fun q' => ?_, h.at_iff_update (fun x => ?_) fun x p' hpp => ?_⟩
  · exact (h.areQueues.enqueue hfree q).queue q'
  · cases x with
    | queue q' =>
      by_cases hq : q' = q
      · subst hq
        simp [State.At]
      · simp only [State.At, Function.update_of_ne hq, Option.some.injEq, Place.queue.injEq]
        exact iff_of_false (hfree q') fun hqq => hq hqq.symm
    | scheduler c => exact iff_of_false (h.not_at hp (.scheduler c)) nofun
    | boost => exact iff_of_false (h.not_at hp .boost) nofun
    | running c => exact iff_of_false (h.not_at hp (.running c)) nofun
  · cases x with
    | queue q' =>
      by_cases hq : q' = q
      · subst hq
        simp [State.At, hpp]
      · simp only [State.At, Function.update_of_ne hq]
    | scheduler c => rfl
    | boost => rfl
    | running c => rfl

/-- **A process is taken from its queue.** -/
theorem deque (h : Placed s L loc) (hd : s.deque q = some (p, s')) :
    loc p = some (.queue q) ∧
      Placed s' (Function.update L q (L q).tail) (Function.update loc p none) ∧
      ∃ queues next, s' = { s with queues := queues, next := next } := by
  rcases hL : L q with _ | ⟨p₀, l⟩
  · rw [State.deque, h.areQueues.deque_eq_none_iff.2 hL] at hd
    cases hd
  obtain ⟨queue, hdq, hqueues, hgone⟩ := h.areQueues.deque hL
  rw [State.deque, hdq] at hd
  cases hd
  have hp : s.At L (.queue q) p := by simp [State.At, hL]
  refine ⟨(h.at_iff _ _).1 hp, ⟨hqueues.queue, h.at_iff_update (fun x => ?_) fun x p' hpp => ?_⟩,
    _, _, rfl⟩
  · refine iff_of_false (fun hx => ?_) nofun
    cases x with
    | queue q' => exact hgone q' hx
    | scheduler c => exact nomatch h.place_unique (x := .scheduler c) hx hp
    | boost => exact nomatch h.place_unique (x := .boost) hx hp
    | running c => exact nomatch h.place_unique (x := .running c) hx hp
  · cases x with
    | queue q' =>
      by_cases hq : q' = q
      · subst hq
        simp [State.At, hL, hpp]
      · simp only [State.At, Function.update_of_ne hq]
    | scheduler c => rfl
    | boost => rfl
    | running c => rfl

/-! ## The CPUs -/

variable {y : Cpu}

theorem at_setCpu (x : Place ncpu) (p : Slot) :
    (s.setCpu c y).At L x p ↔ (s.At L x p ∧ x ≠ .scheduler c ∧ x ≠ .running c) ∨
      (x = .scheduler c ∧ y = .holding p) ∨ (x = .running c ∧ y = .running p) := by
  cases x with
  | queue q => simp [State.At]
  | boost => simp [State.At, State.setCpu]
  | scheduler c' | running c' =>
    by_cases hc : c' = c
    · subst hc
      simp [State.At, State.setCpu]
    · simp [State.At, State.setCpu, hc]

/-- Only the process the CPU had and the one it gets are concerned. -/
theorem at_setCpu_of_ne (hs : (s.cpu c).proc ≠ some p) (hy : y.proc ≠ some p) (x : Place ncpu) :
    (s.setCpu c y).At L x p ↔ s.At L x p := by
  rw [at_setCpu]
  refine ⟨?_, fun hx => .inl ⟨hx, ?_, ?_⟩⟩
  · rintro (⟨hx, -⟩ | ⟨-, rfl⟩ | ⟨-, rfl⟩)
    · exact hx
    · exact absurd rfl hy
    · exact absurd rfl hy
  · rintro rfl
    exact hs (congrArg Cpu.proc hx)
  · rintro rfl
    exact hs (congrArg Cpu.proc hx)

/-- The scheduler looks at another queue. -/
theorem look (h : Placed s L loc) (hc : (s.cpu c).proc = none) (hy : y.proc = none) :
    Placed (s.setCpu c y) L loc := by
  refine ⟨h.queue, fun x p => ?_⟩
  rw [← h.at_iff, at_setCpu_of_ne]
  · rw [hc]; nofun
  · rw [hy]; nofun

/-- **The process of a CPU leaves it.** -/
theorem leave (h : Placed s L loc) (hc : (s.cpu c).proc = some p) (hy : y.proc = none) :
    Placed (s.setCpu c y) L (Function.update loc p none) := by
  have hp : s.At L (.scheduler c) p ∨ s.At L (.running c) p := by
    revert hc
    rcases hcpu : s.cpu c with q | p' | p' <;> rintro ⟨⟩
    · exact .inl hcpu
    · exact .inr hcpu
  refine ⟨h.queue, h.at_iff_update (fun x => iff_of_false ?_ nofun) fun x p' hpp =>
    at_setCpu_of_ne ?_ ?_ x⟩
  · rw [at_setCpu]
    rintro (⟨hx, hs, hr⟩ | ⟨-, rfl⟩ | ⟨-, rfl⟩)
    · exact hp.elim (fun hp => hs (h.place_unique hx hp)) fun hp => hr (h.place_unique hx hp)
    · cases hy
    · cases hy
  · rw [hc]
    exact fun heq => hpp (Option.some.inj heq).symm
  · rw [hy]; nofun

/-- A process comes to a CPU. -/
theorem enter (h : Placed s L loc) (hc : (s.cpu c).proc = none) (hp : loc p = none)
    (hy : y.proc = some p) {z : Place ncpu}
    (hz : ∀ x, (x = .scheduler c ∧ y = .holding p) ∨ (x = .running c ∧ y = .running p) ↔ z = x) :
    Placed (s.setCpu c y) L (Function.update loc p (some z)) := by
  refine ⟨h.queue, h.at_iff_update (fun x => ?_) fun x p' hpp => at_setCpu_of_ne ?_ ?_ x⟩
  · rw [at_setCpu, hz, or_iff_right fun hx => h.not_at hp x hx.1, Option.some.injEq]
  · rw [hc]; nofun
  · rw [hy]
    exact fun heq => hpp (Option.some.inj heq).symm

/-- The scheduler takes a process. -/
theorem hold (h : Placed s L loc) (hc : (s.cpu c).proc = none) (hp : loc p = none) :
    Placed (s.setCpu c (.holding p)) L (Function.update loc p (some (.scheduler c))) :=
  h.enter hc hp rfl fun x => by simp [eq_comm]

/-- The scheduler runs the process it has taken. -/
theorem run (h : Placed s L loc) (hc : s.cpu c = .holding p) :
    Placed (s.setCpu c (.running p)) L (Function.update loc p (some (.running c))) := by
  -- the process leaves the CPU and comes back
  have h' := (h.leave (y := .looking 0) (congrArg Cpu.proc hc) rfl).enter (c := c) (p := p)
    (y := .running p) (z := .running c) (by simp [State.setCpu, Cpu.proc])
    (Function.update_self ..) rfl fun x => by simp [eq_comm]
  rw [Function.update_idem] at h'
  refine h'.congr (fun _ _ _ => rfl) rfl ?_ rfl
  simp [State.setCpu]

/-! ## The boost -/

/-- `mlfq_boost` puts down the process it has taken. -/
theorem drop (h : Placed s L loc) (hb : s.boost.taken = some p) {b : Boost}
    (hb' : b.taken = none) : Placed { s with boost := b } L (Function.update loc p none) := by
  have hp : s.At L .boost p := hb
  refine ⟨h.queue, h.at_iff_update (fun x => iff_of_false (fun hx => ?_) nofun) fun x p' hpp => ?_⟩
  · cases x with
    | boost => cases hb'.symm.trans hx
    | queue q => exact nomatch h.place_unique (x := .queue q) hx hp
    | scheduler c => exact nomatch h.place_unique (x := .scheduler c) hx hp
    | running c => exact nomatch h.place_unique (x := .running c) hx hp
  · cases x with
    | boost =>
      simp only [State.At, hb, hb', reduceCtorEq, Option.some.injEq, false_iff]
      exact fun heq => hpp heq.symm
    | queue q => rfl
    | scheduler c => rfl
    | running c => rfl

/-- `mlfq_boost` takes a process. -/
theorem take (h : Placed s L loc) (hb : s.boost.taken = none) (hp : loc p = none) {b : Boost}
    (hb' : b.taken = some p) :
    Placed { s with boost := b } L (Function.update loc p (some .boost)) := by
  refine ⟨h.queue, h.at_iff_update (fun x => ?_) fun x p' hpp => ?_⟩
  · cases x with
    | boost => exact iff_of_true hb' rfl
    | queue q => exact iff_of_false (h.not_at hp (.queue q)) nofun
    | scheduler c => exact iff_of_false (h.not_at hp (.scheduler c)) nofun
    | running c => exact iff_of_false (h.not_at hp (.running c)) nofun
  · cases x with
    | boost =>
      simp only [State.At, hb, hb', reduceCtorEq, Option.some.injEq, iff_false]
      exact fun heq => hpp heq.symm
    | queue q => rfl
    | scheduler c => rfl
    | running c => rfl

end Placed

end Xv6
