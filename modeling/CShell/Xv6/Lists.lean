/-
  xv6 formalization — the queues as lists.

  The four queues share the links `next` of the processes.  Here they are
  related to the lists of processes they hold (`Queued`), and `mlfq_boost` is
  run to its end with nothing else in between (`mlfqBoost`).

  * `Queued.drain`: the first loop of the boost appends a list to that of
    queue 0, three steps for each process;
  * `sweep_to_end`: its second loop resets every process;
  * `queues_refine_lists`: `enqueue` appends, `deque_highest_priority_p` takes
    the first process of the first list that is not empty, and `mlfq_boost`
    concatenates the lists.
-/
import CShell.Xv6.Boost
import Mathlib.Data.Fintype.Card
import Mathlib.Tactic.FinCases

namespace Xv6

open Lib

variable {ncpu : ℕ} {s s' : State ncpu} {p : Slot} {q : Fin 4} {L : Fin 4 → List Slot}

namespace State

/-- `deque_highest_priority_p`. -/
def dequeHighestPriorityP (s : State ncpu) : Option (Slot × State ncpu) :=
  (List.finRange 4).findSome? fun q : Fin 4 => s.deque q

/-- `mlfq_boost` goes on to its end, for at most `n` steps. -/
def boostRun : ℕ → State ncpu → Option (State ncpu)
  | 0, s => if s.boost = .off then some s else none
  | n + 1, s => if s.boost = .off then some s else s.boostStep.bind (boostRun n)

end State

/-- Three steps for each process in a queue, one at the end of each queue, and one for
    each slot. -/
def boostLimit : ℕ := 1 + (3 * nproc + 3) + nproc

/-- `mlfq_boost`, with no other CPU interfering. -/
def State.mlfqBoost (s : State ncpu) : Option (State ncpu) :=
  boostRun boostLimit { s with boost := .due }

/-! ## The lists -/

/-- The four queues hold the lists, and no process is in two of them. -/
def State.Lists (s : State ncpu) (L : Fin 4 → List Slot) : Prop :=
  AreQueues s.next (fun q : Fin 4 => s.queues q) L

/-- The four queues hold lists of runnable processes. -/
structure Queued (s : State ncpu) (L : Fin 4 → List Slot) : Prop where
  lists : s.Lists L
  runnable : ∀ q, ∀ p ∈ L q, (s.proc p).state = .runnable

theorem update_queues (queues : ℕ → LinkedQueue Slot) (q : Fin 4) (x : LinkedQueue Slot) :
    (fun i : Fin 4 => Function.update queues q x i) =
      Function.update (fun i : Fin 4 => queues i) q x :=
  Function.update_comp_eq_of_injective queues (fun _ _ h => Fin.ext h) q x

theorem State.Lists.enqueue (h : s.Lists L) (hp : ∀ q, p ∉ L q) (q : Fin 4) :
    (s.enqueue q p).Lists (Function.update L q (L q ++ [p])) := by
  have h' := AreQueues.enqueue h hp q
  rw [← update_queues] at h'
  exact h'

/-- A process becomes runnable. -/
theorem Queued.makeRunnable (h : Queued s L) (hp : ∀ q, p ∉ L q) (q : Fin 4) :
    Queued (s.makeRunnable q p) (Function.update L q (L q ++ [p])) := by
  refine ⟨State.Lists.enqueue (s := s.setProc p { s.proc p with state := .runnable }) h.lists hp q,
    fun q' x hx => ?_⟩
  show (Function.update s.proc p { s.proc p with state := .runnable } x).state = .runnable
  by_cases hxp : x = p
  · rw [hxp, Function.update_self]
  · rw [Function.update_of_ne hxp]
    by_cases hq : q' = q
    · subst hq
      rw [Function.update_self, List.mem_append, List.mem_singleton] at hx
      exact h.runnable q' x (hx.resolve_right hxp)
    · rw [Function.update_of_ne hq] at hx
      exact h.runnable q' x hx

theorem State.Lists.deque_eq_none_iff (h : s.Lists L) : s.deque q = none ↔ L q = [] := by
  rw [← AreQueues.deque_eq_none_iff h, State.deque]
  rcases (s.queues q).deque s.next with _ | ⟨p, queue, next⟩ <;> simp

theorem State.Lists.deque {l : List Slot} (h : s.Lists L) (hL : L q = p :: l) :
    ∃ queues next, s.deque q = some (p, { s with queues := queues, next := next }) ∧
      ({ s with queues := queues, next := next } : State ncpu).Lists (Function.update L q l) ∧
      ∀ q', p ∉ Function.update L q l q' := by
  obtain ⟨queue, hd, h', hgone⟩ := AreQueues.deque h hL
  rw [← update_queues] at h'
  refine ⟨Function.update s.queues q queue, Function.update s.next p none, ?_, h', hgone⟩
  rw [State.deque, hd]

/-! ## The boost -/

/-- `n` steps of the boost. -/
def State.boostSteps : ℕ → State ncpu → Option (State ncpu)
  | 0, s => some s
  | n + 1, s => s.boostStep.bind (boostSteps n)

theorem boostSteps_add {m n : ℕ} {t : State ncpu} (h : s.boostSteps m = some s')
    (h' : s'.boostSteps n = some t) : s.boostSteps (m + n) = some t := by
  induction m generalizing s with
  | zero =>
    cases h
    rw [Nat.zero_add]
    exact h'
  | succ m ih =>
    obtain ⟨s₁, hs₁, h⟩ := Option.bind_eq_some_iff.1 h
    rw [Nat.add_right_comm, State.boostSteps, hs₁]
    exact ih h

/-- Steps that end the boost are all it takes. -/
theorem boostRun_of_steps {m n : ℕ} (h : s.boostSteps n = some s') (hoff : s'.boost = .off)
    (hn : n ≤ m) : s.boostRun m = some s' := by
  induction n generalizing s m with
  | zero =>
    cases h
    cases m <;> exact if_pos hoff
  | succ n ih =>
    obtain ⟨s₁, hs₁, h⟩ := Option.bind_eq_some_iff.1 h
    obtain ⟨m, rfl⟩ : ∃ m', m = m' + 1 := ⟨m - 1, by omega⟩
    have hne : s.boost ≠ .off := by
      intro hs
      rw [State.boostStep, hs] at hs₁
      cases hs₁
    rw [State.boostRun, if_neg hne, hs₁]
    exact ih h (by omega)

/-- What the boost does not change: the CPUs, and the processes but for their priority and
    ticks. -/
structure Boosted (s s' : State ncpu) : Prop where
  cpu : s'.cpu = s.cpu
  proc : ∀ p, (s'.proc p).raise = (s.proc p).raise

theorem boosted_setProc (p : Slot) (s : State ncpu) (i : Slot) :
    ((s.setProc p (s.proc p).raise).proc i).raise = (s.proc i).raise := by
  show (Function.update s.proc p (s.proc p).raise i).raise = (s.proc i).raise
  by_cases hi : i = p
  · subst hi
    rw [Function.update_self]
    rfl
  · rw [Function.update_of_ne hi]

theorem Boosted.of_boostStep (hs : s.boostStep = some s') : Boosted s s' := by
  cases boosts_of_boostStep hs with
  | took _ hd =>
    unfold State.deque at hd
    split at hd
    · cases hd
    · cases hd
      exact ⟨rfl, fun _ => rfl⟩
  | raised _ _ => exact ⟨rfl, boosted_setProc _ s⟩
  | swept _ => exact ⟨rfl, boosted_setProc _ s⟩
  | start _ | emptied _ _ | skipped _ _ | put _ => exact ⟨rfl, fun _ => rfl⟩

theorem Boosted.of_boostSteps {n : ℕ} (hs : s.boostSteps n = some s') : Boosted s s' := by
  induction n generalizing s with
  | zero =>
    cases hs
    exact ⟨rfl, fun _ => rfl⟩
  | succ n ih =>
    obtain ⟨s₁, hs₁, hs⟩ := Option.bind_eq_some_iff.1 hs
    have h₁ := Boosted.of_boostStep hs₁
    have h₂ := ih hs
    exact ⟨h₂.cpu.trans h₁.cpu, fun p => (h₂.proc p).trans (h₁.proc p)⟩

theorem Boosted.state (h : Boosted s s') (p : Slot) : (s'.proc p).state = (s.proc p).state := by
  show (s'.proc p).raise.state = (s.proc p).raise.state
  rw [h.proc p]

/-- The lists after the first process of queue `q` has gone to the end of queue 0. -/
theorem mem_moved {l : List Slot} (hL : L q = p :: l) {q' : Fin 4} {x : Slot}
    (hx : x ∈ Function.update (Function.update L q l) 0 (Function.update L q l 0 ++ [p]) q') :
    ∃ q, x ∈ L q := by
  have hmem : ∀ i, x ∈ Function.update L q l i → ∃ q, x ∈ L q := by
    intro i hi
    by_cases hiq : i = q
    · subst hiq
      rw [Function.update_self] at hi
      exact ⟨i, hL ▸ List.mem_cons_of_mem _ hi⟩
    · rw [Function.update_of_ne hiq] at hi
      exact ⟨i, hi⟩
  by_cases h0 : q' = 0
  · subst h0
    rw [Function.update_self, List.mem_append, List.mem_singleton] at hx
    rcases hx with hx | rfl
    · exact hmem 0 hx
    · exact ⟨q, hL ▸ List.mem_cons_self⟩
  · rw [Function.update_of_ne h0] at hx
    exact hmem q' hx

/-- The boost takes the first process of a queue to the end of queue 0. -/
theorem Queued.boostOne {l : List Slot} (h : Queued s L) (hb : s.boost = .drain q)
    (hL : L q = p :: l) :
    ∃ s', s.boostSteps 3 = some s' ∧ s'.boost = .drain q ∧
      Queued s' (Function.update (Function.update L q l) 0
        (Function.update L q l 0 ++ [p])) := by
  obtain ⟨queues, next, hd, hlists, hgone⟩ := h.lists.deque hL
  have hst : (s.proc p).state = .runnable := h.runnable q p (hL ▸ List.mem_cons_self)
  obtain ⟨s', hs', hb', hl'⟩ : ∃ s', s.boostSteps 3 = some s' ∧ s'.boost = .drain q ∧
      s'.Lists (Function.update (Function.update L q l) 0 (Function.update L q l 0 ++ [p])) := by
    refine ⟨{ State.enqueue 0 p { s.setProc p (s.proc p).raise with
      queues := queues, next := next } with boost := .drain q }, ?_, rfl, ?_⟩
    · simp only [State.boostSteps, State.boostStep, hb, hd, Option.bind_some, hst, if_true,
        State.setProc, State.enqueue]
    · exact State.Lists.enqueue (s := { s.setProc p (s.proc p).raise with
        queues := queues, next := next }) hlists hgone 0
  refine ⟨s', hs', hb', hl', fun q' x hx => ?_⟩
  obtain ⟨q'', hx⟩ := mem_moved hL hx
  rw [(Boosted.of_boostSteps hs').state]
  exact h.runnable q'' x hx

/-- The list of queue `q` is appended to that of queue 0. -/
def emptied (L : Fin 4 → List Slot) (q : Fin 4) : Fin 4 → List Slot :=
  Function.update (Function.update L q []) 0 (L 0 ++ L q)

/-- **The first loop of the boost empties a queue into queue 0.** -/
theorem Queued.drain (h : Queued s L) (hb : s.boost = .drain q) (hq : q ≠ 0) :
    ∃ s', s.boostSteps (3 * (L q).length) = some s' ∧ s'.boost = .drain q ∧
      Queued s' (emptied L q) := by
  unfold emptied
  generalize hL : L q = l
  induction l generalizing s L with
  | nil =>
    have hsame : Function.update (Function.update L q []) 0 (L 0 ++ []) = L := by
      rw [← hL, Function.update_eq_self, hL, List.append_nil, Function.update_eq_self]
    rw [hsame]
    exact ⟨s, rfl, hb, h⟩
  | cons p l ih =>
    obtain ⟨s₁, hs₁, hb₁, h₁⟩ := h.boostOne hb hL
    have hLq : Function.update (Function.update L q l) 0 (Function.update L q l 0 ++ [p]) q = l := by
      rw [Function.update_of_ne hq, Function.update_self]
    obtain ⟨s', hs', hb', h'⟩ := ih h₁ hb₁ hLq
    refine ⟨s', ?_, hb', ?_⟩
    · rw [List.length_cons, Nat.mul_succ, Nat.add_comm]
      exact boostSteps_add hs₁ hs'
    · convert h' using 1
      funext i
      by_cases hi : i = 0
      · subst hi
        simp [Function.update_of_ne hq.symm]
      · by_cases hiq : i = q
        · subst hiq
          simp [hi]
        · simp [hi, hiq]

/-- **The second loop of the boost resets every process**, from slot `i` on. -/
theorem sweep_to_end {n : ℕ} {i : Slot} (hb : s.boost = .sweep i) (hn : i.val + n = nproc) :
    ∃ s', s.boostSteps n = some s' ∧ s'.boost = .off ∧ s'.queues = s.queues ∧
      s'.next = s.next ∧ ∀ p, s'.proc p = if i ≤ p then (s.proc p).raise else s.proc p := by
  induction n generalizing s i with
  | zero => exact absurd i.isLt (by omega)
  | succ n ih =>
    obtain ⟨t, ht, htb, htq, htn, htp⟩ : ∃ t, s.boostStep = some t ∧
        t.boost = (if h : i.val + 1 < nproc then .sweep ⟨i.val + 1, h⟩ else .off) ∧
        t.queues = s.queues ∧ t.next = s.next ∧
        t.proc = Function.update s.proc i (s.proc i).raise := by
      refine ⟨{ s.setProc i (s.proc i).raise with
        boost := if h : i.val + 1 < nproc then .sweep ⟨i.val + 1, h⟩ else .off }, ?_, rfl, rfl, rfl, rfl⟩
      simp only [State.boostStep, hb]
    by_cases hlast : i.val + 1 < nproc
    · rw [dif_pos hlast] at htb
      obtain ⟨s', hs', hoff, hqueues, hnext, hproc⟩ := ih htb (by show i.val + 1 + n = _; omega)
      refine ⟨s', ?_, hoff, hqueues.trans htq, hnext.trans htn, fun p => ?_⟩
      · rw [State.boostSteps, ht]
        exact hs'
      · rw [hproc p, htp]
        by_cases hp : p = i
        · subst hp
          have hnot : ¬(⟨p.val + 1, hlast⟩ : Slot) ≤ p := Nat.not_succ_le_self p.val
          rw [Function.update_self, if_neg hnot, if_pos (le_refl p)]
        · have hle : (⟨i.val + 1, hlast⟩ : Slot) ≤ p ↔ i ≤ p := by
            have hne : p.val ≠ i.val := fun h => hp (Fin.ext h)
            show i.val + 1 ≤ p.val ↔ i.val ≤ p.val
            omega
          rw [Function.update_of_ne hp, if_congr hle rfl rfl]
    · rw [dif_neg hlast] at htb
      obtain rfl : n = 0 := by omega
      refine ⟨t, ?_, htb, htq, htn, fun p => ?_⟩
      · rw [State.boostSteps, ht]
        rfl
      · rw [htp]
        by_cases hp : p = i
        · subst hp
          rw [Function.update_self, if_pos (le_refl p)]
        · have hlt : ¬i ≤ p := by
            have hne : p.val ≠ i.val := fun h => hp (Fin.ext h)
            have := p.isLt
            show ¬i.val ≤ p.val
            omega
          rw [Function.update_of_ne hp, if_neg hlt]

/-- The end of a queue. -/
theorem Queued.boostNext (h : Queued s L) (hb : s.boost = .drain q) (hL : L q = []) :
    ∃ s', s.boostSteps 1 = some s' ∧
      s'.boost = (if q.val < 3 then .drain (q.val + 1) else .sweep 0) ∧ Queued s' L := by
  refine ⟨{ s with boost := if q.val < 3 then .drain (q.val + 1) else .sweep 0 }, ?_, rfl,
    h.lists, h.runnable⟩
  simp only [State.boostSteps, State.boostStep, hb, h.lists.deque_eq_none_iff.2 hL, Option.bind_some]

/-- The boost empties a queue and goes on to the next one. -/
theorem Queued.drainQueue (h : Queued s L) (hb : s.boost = .drain q) (hq : q ≠ 0) :
    ∃ s', s.boostSteps (3 * (L q).length + 1) = some s' ∧
      s'.boost = (if q.val < 3 then .drain (q.val + 1) else .sweep 0) ∧
      Queued s' (emptied L q) := by
  obtain ⟨s₁, hs₁, hb₁, h₁⟩ := h.drain hb hq
  obtain ⟨s', hs', hb', h'⟩ := h₁.boostNext hb₁ (by simp [emptied, hq])
  exact ⟨s', boostSteps_add hs₁ hs', hb', h'⟩

/-- The lists after the boost. -/
def boostedLists (L : Fin 4 → List Slot) : Fin 4 → List Slot := fun q =>
  if q = 0 then L 0 ++ L 1 ++ L 2 ++ L 3 else []

theorem emptied_all (L : Fin 4 → List Slot) :
    emptied (emptied (emptied L 1) 2) 3 = boostedLists L := by
  funext q
  fin_cases q <;> rfl

theorem Queued.length_le (h : Queued s L) :
    (L 1).length + (L 2).length + (L 3).length ≤ nproc := by
  have hnd : (L 1 ++ L 2 ++ L 3).Nodup := by
    have hd : ∀ i j, i ≠ j → ∀ a ∈ L i, ∀ b ∈ L j, a ≠ b := by
      rintro i j hij a ha _ hb rfl
      exact hij (h.lists.unique i j a ha hb)
    rw [List.nodup_append, List.nodup_append]
    refine ⟨⟨(h.lists.queue 1).nodup, (h.lists.queue 2).nodup, hd 1 2 (by decide)⟩,
      (h.lists.queue 3).nodup, fun a ha b hb => ?_⟩
    rcases List.mem_append.1 ha with ha | ha
    · exact hd 1 3 (by decide) a ha b hb
    · exact hd 2 3 (by decide) a ha b hb
  have hle := hnd.length_le_card
  rw [Fintype.card_fin] at hle
  simpa [Nat.add_assoc] using hle

/-- **`mlfq_boost` ends, with all processes in queue 0 and every process reset.** -/
theorem Queued.mlfqBoost (h : Queued s L) :
    ∃ s', s.mlfqBoost = some s' ∧ s'.boost = .off ∧ Queued s' (boostedLists L) ∧
      s'.cpu = s.cpu ∧ ∀ p, s'.proc p = (s.proc p).raise := by
  have h₀ : Queued { s with boost := .drain 1 } L := ⟨h.lists, h.runnable⟩
  obtain ⟨s₁, hs₁, hb₁, h₁⟩ := h₀.drainQueue (q := 1) rfl (by decide)
  obtain ⟨s₂, hs₂, hb₂, h₂⟩ := h₁.drainQueue (q := 2) hb₁ (by decide)
  obtain ⟨s₃, hs₃, hb₃, h₃⟩ := h₂.drainQueue (q := 3) hb₂ (by decide)
  obtain ⟨s', hs', hoff, hqueues, hnext, hproc⟩ := sweep_to_end (n := nproc) hb₃ rfl
  have hsteps := boostSteps_add (boostSteps_add (boostSteps_add hs₁ hs₂) hs₃) hs'
  have hframe := Boosted.of_boostSteps hsteps
  have hall : ∀ p, s'.proc p = (s.proc p).raise := by
    intro p
    have hp := hframe.proc p
    rw [hproc p, if_pos (Fin.zero_le p)] at hp ⊢
    exact hp
  rw [emptied_all] at h₃
  refine ⟨s', boostRun_of_steps (n := 1 + (3 * (L 1).length + 1 + (3 * (L 2).length + 1) +
    (3 * (L 3).length + 1) + nproc)) ?_ hoff ?_, hoff, ⟨?_, fun q p hp => ?_⟩, hframe.cpu, hall⟩
  · have hstart : State.boostSteps 1 { s with boost := .due } = some { s with boost := .drain 1 } := rfl
    exact boostSteps_add hstart hsteps
  · have hlen := h.length_le
    unfold boostLimit
    omega
  · unfold State.Lists
    rw [hqueues, hnext]
    exact h₃.lists
  · rw [(Boosted.of_boostSteps hs').state p]
    exact h₃.runnable q p hp

/-! ## The operations on the queues -/

theorem State.Lists.of_deque (h : s.Lists L) (hd : s.deque q = some (p, s')) :
    ∃ l, L q = p :: l ∧ s'.Lists (Function.update L q l) ∧ s'.proc = s.proc := by
  rcases hL : L q with _ | ⟨p₀, l⟩
  · rw [h.deque_eq_none_iff.2 hL] at hd
    cases hd
  · obtain ⟨queues, next, hd', h', -⟩ := h.deque hL
    rw [hd'] at hd
    cases hd
    exact ⟨l, rfl, h', rfl⟩

theorem State.Lists.dequeHighestPriorityP_eq_none_iff (h : s.Lists L) :
    s.dequeHighestPriorityP = none ↔ ∀ q, L q = [] := by
  simp [State.dequeHighestPriorityP, List.findSome?_eq_none_iff, h.deque_eq_none_iff]

/-- The queue the process is taken from is the first that is not empty. -/
theorem exists_deque_of_highest (hd : s.dequeHighestPriorityP = some (p, s')) :
    ∃ q : Fin 4, s.deque q = some (p, s') ∧ ∀ q' < q, s.deque q' = none := by
  obtain ⟨l₁, q, l₂, hl, hq, hbefore⟩ := List.findSome?_eq_some_iff.1 hd
  refine ⟨q, hq, fun q' hlt => hbefore q' ?_⟩
  have hsorted := List.pairwise_lt_finRange 4
  rw [hl, List.pairwise_append, List.pairwise_cons] at hsorted
  have hmem : q' ∈ l₁ ++ q :: l₂ := hl ▸ List.mem_finRange q'
  rcases List.mem_append.1 hmem with hmem | hmem
  · exact hmem
  · -- the queues from `q` on come after it
    rcases List.mem_cons.1 hmem with rfl | hmem
    · exact absurd hlt (lt_irrefl q')
    · exact absurd (hsorted.2.1.1 q' hmem) (lt_asymm hlt)

/-- **The queues are first-in first-out lists**: `enqueue` appends a process that is in none of
    them, `deque_highest_priority_p` takes the first process of the first list that is not empty,
    and `mlfq_boost` ends with all of them in queue 0, in order, and every process reset. -/
theorem queues_refine_lists (h : Queued s L) :
    (∀ (q : Fin 4) p, (∀ q', p ∉ L q') →
      (s.enqueue q p).Lists (Function.update L q (L q ++ [p])) ∧ (s.enqueue q p).proc = s.proc) ∧
    (s.dequeHighestPriorityP = none ↔ ∀ q, L q = []) ∧
    (∀ p s', s.dequeHighestPriorityP = some (p, s') → ∃ q l, (∀ q' < q, L q' = []) ∧
      L q = p :: l ∧ s'.Lists (Function.update L q l) ∧ s'.proc = s.proc) ∧
    ∃ s', s.mlfqBoost = some s' ∧ s'.boost = .off ∧
      s'.Lists (fun q => if q = 0 then L 0 ++ L 1 ++ L 2 ++ L 3 else []) ∧
      ∀ p, (s'.proc p).priority = 0 ∧ (s'.proc p).ticksUsed = 0 := by
  refine ⟨fun q p hp => ⟨h.lists.enqueue hp q, rfl⟩, h.lists.dequeHighestPriorityP_eq_none_iff,
    fun p s' hd => ?_, ?_⟩
  · obtain ⟨q, hq, hbefore⟩ := exists_deque_of_highest hd
    obtain ⟨l, hl, hlists, hproc⟩ := h.lists.of_deque hq
    exact ⟨q, l, fun q' hq' => h.lists.deque_eq_none_iff.1 (hbefore q' hq'), hl, hlists, hproc⟩
  · obtain ⟨s', hs', hoff, h', -, hproc⟩ := h.mlfqBoost
    refine ⟨s', hs', hoff, h'.lists, fun p => ?_⟩
    rw [hproc p]
    exact ⟨rfl, rfl⟩

/-- One process waits in queue 0 and two in queue 2. -/
theorem queues_refine_lists_three :
    ∃ s s' : State 1, s = ((State.init.makeRunnable 0 3).makeRunnable 2 5).makeRunnable 2 1 ∧
      s.mlfqBoost = some s' ∧ s'.Lists (fun q => if q = 0 then [3, 5, 1] else []) := by
  have h₀ : Queued (State.init : State 1) fun _ => [] :=
    ⟨⟨fun _ => .nil _, by simp⟩, by simp⟩
  have h₁ := h₀.makeRunnable (p := 3) (by simp) 0
  have h₂ := h₁.makeRunnable (p := 5) (by decide) 2
  have h₃ := h₂.makeRunnable (p := 1) (by decide) 2
  obtain ⟨-, -, -, s', hs', -, hl, -⟩ := queues_refine_lists h₃
  exact ⟨_, s', rfl, hs', hl⟩

end Xv6
