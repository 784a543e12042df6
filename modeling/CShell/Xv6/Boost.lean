/-
  xv6 formalization — processes wait in the queue of their priority.

  The queue of a waiting process and `p->priority` are two records of the same
  thing, and `mlfq_boost` sets `p->priority` of every process in a loop of its
  own, after it has emptied queues 1 to 3.

  * `ranked_iff_sweepSafe`: a run keeps the two records equal iff this loop
    never meets a process that another CPU has put into queue 1, 2 or 3 in the
    meantime;
  * `yield_during_boost`: with two CPUs it can;
  * `ranked_of_one_cpu`: with one CPU it cannot.
-/
import CShell.Xv6.Queues

namespace Xv6

open Lib

variable {ncpu : ℕ} {s s' : State ncpu} {p : Slot} {q : ℕ}

/-- The process waits in the queue. -/
def State.InQueue (s : State ncpu) (q : ℕ) (p : Slot) : Prop :=
  ∃ l, IsQueue s.next (s.queues q) l ∧ p ∈ l

/-- Every process in a queue has the priority of the queue. -/
def Ranked (s : State ncpu) : Prop := ∀ q < 4, ∀ p, s.InQueue q p → (s.proc p).priority = q

/-- If the step is the one of `mlfq_boost` that sets the priority of process
    `i`, then `i` does not wait in queue 1, 2 or 3. -/
def SweepSafe (s : State ncpu) (a : Act ncpu) : Prop :=
  ∀ i, a = .boost → s.boost = .sweep i → ∀ q < 4, s.InQueue q i → q = 0

theorem Inv.inQueue_iff {W : Slot → Prop} {L : ℕ → List Slot} {loc : Slot → Option (Place ncpu)}
    (h : Inv W s L loc) : s.InQueue q p ↔ loc p = some (.queue q) := by
  rw [← h.placed.at_iff]
  refine ⟨fun ⟨l, hl, hp⟩ => ?_, fun hp => ⟨L q, h.placed.queue q, hp⟩⟩
  rw [hl.unique (h.placed.queue q)] at hp
  exact hp

theorem ranked_of_consistent (h : Consistent (fun _ => False) s) : Ranked s := by
  obtain ⟨L, loc, hI⟩ := h
  intro q _ p hp
  exact ((hI.good p).rank q (hI.inQueue_iff.1 hp)).2.resolve_right id

theorem consistent_of_sweepSafe {a : Act ncpu} (h : Consistent (fun _ => False) s)
    (ha : SweepSafe s a) (hs : s.step a = some s') : Consistent (fun _ => False) s' := by
  obtain ⟨L, loc, hI⟩ := h
  refine hI.step (fun i q hb hi hq => .inl ?_) hs
  exact ha i hb hi q ((hI.good i).rank q hq).1 (hI.inQueue_iff.2 hq)

/-- The loop sets the priority of a process without moving it. -/
theorem not_ranked_of_sweep {a : Act ncpu} (ha : ¬SweepSafe s a) (hs : s.step a = some s') :
    ¬Ranked s' := by
  unfold SweepSafe at ha
  push Not at ha
  obtain ⟨i, rfl, hb, q, hq, hi, h0⟩ := ha
  simp only [State.step, State.boostStep, hb] at hs
  cases hs
  intro hR
  have hpr := hR q hq i hi
  simp only [State.setProc, Function.update_self, Proc.raise] at hpr
  exact h0 hpr.symm

/-! ## A boost that is not interrupted -/

/-- The queues `mlfq_boost` has emptied so far. -/
def Boost.Emptied : Boost → ℕ → Prop
  | .drain q, q' | .took q _, q' | .reset q _, q' => 1 ≤ q' ∧ q' < q
  | .sweep _, q' => 1 ≤ q' ∧ q' < 4
  | _, _ => False

/-- The queues the boost has emptied are still empty. -/
def Drained (s : State ncpu) : Prop := ∀ q, s.boost.Emptied q → (s.queues q).head = none

theorem deque_eq_none (h : s.deque q = none) : (s.queues q).head = none := by
  unfold State.deque LinkedQueue.deque at h
  rcases hh : (s.queues q).head with _ | p
  · rfl
  · simp [hh] at h

theorem Drained.boostStep (h : Drained s) (hs : s.boostStep = some s') : Drained s' := by
  cases boosts_of_boostStep hs with
  | start _ =>
    rintro q ⟨h1, h2⟩
    omega
  | @took q p s₁ hb hd =>
    unfold State.deque at hd
    split at hd
    · cases hd
    · cases hd
      rintro q' ⟨h1, h2⟩
      simp only [Function.update_of_ne (Nat.ne_of_lt h2)]
      exact h q' (by rw [hb]; exact ⟨h1, h2⟩)
  | @emptied q hb hd =>
    intro q' hq'
    by_cases hqq : q' = q
    · subst hqq
      exact deque_eq_none (s := s) hd
    · refine h q' ?_
      rw [hb]
      simp only at hq'
      split at hq' <;> obtain ⟨h1, h2⟩ := hq' <;> exact ⟨h1, by omega⟩
  | raised hb _ | skipped hb _ => exact fun q' hq' => h q' (by rw [hb]; exact hq')
  | put hb =>
    rintro q' ⟨h1, h2⟩
    simp only [State.enqueue, Function.update_of_ne (Nat.ne_of_gt h1)]
    exact h q' (by rw [hb]; exact ⟨h1, h2⟩)
  | swept hb =>
    intro q' hq'
    refine h q' ?_
    rw [hb]
    simp only at hq'
    split at hq'
    · exact hq'
    · cases hq'

theorem Drained.sweepSafe (h : Drained s) (a : Act ncpu) : SweepSafe s a := by
  intro i _ hi q hq hin
  -- a process in queue 1, 2 or 3 contradicts that the boost has emptied it
  by_contra h0
  obtain ⟨l, hl, hmem⟩ := hin
  have hempty := h q (by rw [hi]; exact ⟨Nat.one_le_iff_ne_zero.2 h0, hq⟩)
  rw [hl.head, List.head?_eq_none_iff] at hempty
  rw [hempty] at hmem
  cases hmem

theorem Drained.guarded (h : Drained s) (n : ℕ) :
    Guarded State.step SweepSafe (List.replicate n .boost) s := by
  induction n generalizing s with
  | zero => trivial
  | succ n ih => exact ⟨h.sweepSafe _, fun s' hs => ih (h.boostStep hs)⟩

/-! ## Whole runs -/

/-- **A run keeps every waiting process in the queue of its priority iff the
    boost never resets the priority of a process that waits in queue 1, 2 or 3.** -/
theorem ranked_iff_sweepSafe (as : List (Act ncpu))
    (hr : (run State.step as State.init).isSome) :
    Always State.step Ranked as State.init ↔ Guarded State.step SweepSafe as State.init :=
  always_iff_guarded (fun _ => ranked_of_consistent)
    (fun _ _ _ => consistent_of_sweepSafe)
    (fun _ _ _ _ => not_ranked_of_sweep) ⟨_, _, inv_init⟩ hr

/-- The first process uses up its slice on CPU 1 and yields before CPU 0 boosts. -/
def earlyYield : List (Act 2) :=
  [.on cpu0 .userinit, .on cpu1 .deque, .on cpu1 .dispatch, .on cpu1 .tick, .on cpu1 .yield] ++
    List.replicate 48 (.on cpu0 .clock)

theorem ranked_iff_sweepSafe_boost :
    ∃ s s', run State.step earlyYield State.init = some s ∧ (s.queues 1).head = some 0 ∧
      run State.step (List.replicate 71 .boost) s = some s' ∧ s'.boost = .off ∧
      (s'.queues 0).head = some 0 ∧
      Always State.step Ranked (earlyYield ++ List.replicate 71 .boost) State.init := by
  refine ⟨_, _, rfl, rfl, rfl, rfl, rfl,
    (ranked_iff_sweepSafe _ (by decide +kernel)).2 (Guarded.append ?_ fun s hs => ?_)⟩
  · exact guarded_of_forall fun a ha s i hb => by
      rw [hb] at ha
      exact absurd ha (by decide)
  · have hdue : s.boost = .due := by
      cases hs
      rfl
    exact Drained.guarded (fun q hq => by rw [hdue] at hq; exact hq.elim) 71

/-- The first process runs on CPU 1 and has used up its slice when CPU 0
    boosts; it yields after queue 1 has been emptied. -/
def lateYield : List (Act 2) :=
  [.on cpu0 .userinit, .on cpu1 .deque, .on cpu1 .dispatch] ++
    List.replicate 48 (.on cpu0 .clock) ++
    [.on cpu1 .tick, .boost, .boost, .on cpu1 .yield, .boost, .boost] ++ List.replicate 64 .boost

theorem yield_during_boost :
    ∃ s, run State.step lateYield State.init = some s ∧
      s.boost = .off ∧ s.InQueue 1 0 ∧ (s.proc 0).priority = 0 := by
  refine ⟨_, rfl, rfl, ⟨[0], ⟨rfl, rfl, ⟨rfl, trivial⟩, by simp⟩, by simp⟩, rfl⟩

/-! ## One CPU -/

/-- The steps of a CPU other than `clock` do not concern the boost. -/
theorem perform_boost {c : Fin ncpu} {op : Op} (hs : s.perform c op = some s') :
    s'.boost = s.boost ∨ s'.boost = .due ∨ s'.boost = .off := by
  cases performs_of_perform hs with
  | took _ hd =>
    unfold State.deque at hd
    split at hd <;> cases hd
    exact .inl rfl
  | clock _ =>
    simp only
    split
    · exact .inr (.inl rfl)
    · exact .inr (.inr rfl)
  | _ => exact .inl rfl

/-- On one CPU nothing else happens during the boost. -/
theorem Drained.step {s s' : State 1} {a : Act 1} (h : Drained s) (hs : s.step a = some s') :
    Drained s' := by
  cases a with
  | boost => exact h.boostStep hs
  | on c op =>
    obtain ⟨hb, hs⟩ := Option.ite_none_left_eq_some.1 hs
    have hallows : s.boost.allows op = true := by
      by_contra hno
      exact hb ⟨Nat.lt_one_iff.1 c.isLt, hno⟩
    -- the boost is off or not started yet
    have hnone : ∀ q, ¬s.boost.Emptied q := by
      intro q
      revert hallows
      cases s.boost <;> simp [Boost.allows, Boost.Emptied]
    intro q hq
    rcases perform_boost hs with hs' | hs' | hs' <;> rw [hs'] at hq
    · exact absurd hq (hnone q)
    · exact hq.elim
    · exact hq.elim

/-- **With one CPU every waiting process is in the queue of its priority.** -/
theorem ranked_of_one_cpu {s : State 1} (h : Reachable State.step State.init s) : Ranked s := by
  suffices hs : Consistent (fun _ => False) s ∧ Drained s from ranked_of_consistent hs.1
  refine h.invariant (P := fun s => Consistent (fun _ => False) s ∧ Drained s)
    ⟨⟨_, _, inv_init⟩, fun q hq => hq.elim⟩ ?_
  rintro s a s' ⟨hc, hd⟩ - hs
  exact ⟨consistent_of_sweepSafe hc (hd.sweepSafe a) hs, hd.step hs⟩

end Xv6
