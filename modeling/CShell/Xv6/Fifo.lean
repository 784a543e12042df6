/-
  xv6 formalization — the FIFO build (`proc.c`).

  The scheduler of the FIFO build has no queue.  It sweeps over the process
  table, runs every `RUNNABLE` process it meets and goes on behind it when the
  process gives up the CPU, which no timer interrupt makes it do.  `allocproc`
  takes the first `UNUSED` slot.

  Processes that have not run yet are met in the order of the sweep, not in
  that of their arrival.  The two agree as long as every slot `allocproc`
  takes lies behind those of all processes that have not run yet, seen from
  where the sweep goes on (`AllocsBehind`).

  * `reachable_uni`: a run of this scheduler is a run of `Uni`;
  * `first_runs_in_order`: in every run whose allocations are like that,
    processes get their first run in the order of their arrival;
  * `late_first_run`: a run in which they do not.
-/
import CShell.Xv6.Uniproc

namespace Xv6

open Lib

/-! ## The sweep -/

/-- The slot after `i` in the sweep. -/
def nextSlot (i : Slot) : Slot := ⟨(i.val + 1) % nproc, Nat.mod_lt _ (by decide)⟩

/-- The number of slots the sweep looks at before `p` if it is at `i`. -/
def ahead (i p : Slot) : ℕ := (p.val + (nproc - i.val)) % nproc

theorem ahead_self (i : Slot) : ahead i i = 0 := by
  have hi : i.val < 64 := i.isLt
  simp only [ahead, nproc]
  omega

theorem ahead_pos {i p : Slot} (h : p ≠ i) : 0 < ahead i p := by
  have hne : p.val ≠ i.val := fun hv => h (Fin.ext hv)
  have hi : i.val < 64 := i.isLt
  have hp : p.val < 64 := p.isLt
  simp only [ahead, nproc]
  omega

theorem ahead_next {i p : Slot} (h : p ≠ i) : ahead (nextSlot i) p + 1 = ahead i p := by
  have hne : p.val ≠ i.val := fun hv => h (Fin.ext hv)
  have hi : i.val < 64 := i.isLt
  have hp : p.val < 64 := p.isLt
  simp only [ahead, nextSlot, nproc]
  omega

/-! ## The scheduler -/

/-- One CPU with the FIFO scheduler. -/
structure Fifo where
  uni : Uni
  /-- the slot the scheduler is at -/
  pos : Slot

/-- A step of the scheduler or of something else. -/
inductive FifoOp where
  /-- the scheduler looks at a slot -/
  | look
  | act (op : UniOp)
  deriving DecidableEq, Repr

/-- The slot `allocproc` finds. -/
def Uni.firstUnused (u : Uni) : Option Slot :=
  (List.finRange nproc).find? fun i => (u.proc i).state = .unused

/-- The child the running process is about to make runnable. -/
def Uni.forking (u : Uni) : Option Slot :=
  match u.running with
  | some p => (u.proc p).fork.child
  | none => none

/-- The steps besides those of the scheduler.  A process keeps the CPU inside `kfork`: it does
    not sleep there, and no interrupt makes it yield. -/
def Fifo.allows (u : Uni) : UniOp → Bool
  | .dispatch _ => false
  | .alloc np _ => u.firstUnused = some np
  | .yield | .sleep => u.forking = none
  | _ => true

namespace Fifo

/-- At the start. -/
def init : Fifo := ⟨.init, 0⟩

/-- One step. -/
def step (s : Fifo) : FifoOp → Option Fifo
  | .look =>
    if s.uni.running = none ∧ s.uni.intr = .off then
      if (s.uni.proc s.pos).state = .runnable then some { s with uni := s.uni.dispatch s.pos }
      else some { s with pos := nextSlot s.pos }
    else none
  | .act op =>
    if allows s.uni op then
      (s.uni.step op).map fun u =>
        -- the scheduler goes on behind the process that has given up the CPU
        ⟨u, if s.uni.running ≠ none ∧ u.running = none then nextSlot s.pos else s.pos⟩
    else none

end Fifo

/-- A process that has not run yet. -/
def Uni.Fresh (u : Uni) (p : Slot) : Prop := (u.proc p).state ≠ .unused ∧ u.ran p = false

/-- A slot is taken behind all processes that have not run yet. -/
def AllocsBehind (s : Fifo) (a : FifoOp) : Prop :=
  ∀ np, a = .act (.alloc np true) → ∀ q, s.uni.Fresh q →
    ahead (nextSlot s.pos) q < ahead (nextSlot s.pos) np

instance (u : Uni) (p : Slot) : Decidable (u.Fresh p) := inferInstanceAs (Decidable (_ ∧ _))

instance (s : Fifo) (a : FifoOp) : Decidable (AllocsBehind s a) :=
  inferInstanceAs (Decidable (∀ _, _ → ∀ _, _ → _ < _))

variable {s s' : Fifo} {u u' : Uni} {op : UniOp} {a : FifoOp} {p : Slot}

theorem uni_step_dispatch (hr : u.running = none) (hi : u.intr = .off)
    (hp : (u.proc p).state = .runnable) : u.step (.dispatch p) = some (u.dispatch p) := by
  simp [Uni.step, Uni.perform, Intr.allows, hi, hr, hp]

/-- The steps of the FIFO build. -/
inductive FifoSteps (s : Fifo) : FifoOp → Fifo → Prop where
  | dispatch : s.uni.running = none → s.uni.intr = .off →
      (s.uni.proc s.pos).state = .runnable →
      FifoSteps s .look { s with uni := s.uni.dispatch s.pos }
  | skip : s.uni.running = none → (s.uni.proc s.pos).state ≠ .runnable →
      FifoSteps s .look { s with pos := nextSlot s.pos }
  | act {op : UniOp} {u : Uni} : Fifo.allows s.uni op = true → s.uni.step op = some u →
      FifoSteps s (.act op)
        ⟨u, if s.uni.running ≠ none ∧ u.running = none then nextSlot s.pos else s.pos⟩

theorem fifoSteps_of_step (h : s.step a = some s') : FifoSteps s a s' := by
  cases a with
  | look =>
    obtain ⟨⟨hr, hi⟩, h⟩ := Option.ite_none_right_eq_some.1 h
    split at h
    · cases h
      exact .dispatch hr hi ‹_›
    · cases h
      exact .skip hr ‹_›
  | act op =>
    obtain ⟨hallows, h⟩ := Option.ite_none_right_eq_some.1 h
    obtain ⟨u, hu, h⟩ := Option.map_eq_some_iff.1 h
    cases h
    exact .act hallows hu

/-- **A run of the FIFO build is a run of the kernel.** -/
theorem reachable_uni (h : Reachable Fifo.step Fifo.init s) :
    Reachable Uni.step Uni.init s.uni := by
  refine h.invariant (P := fun s => Reachable Uni.step Uni.init s.uni) .start ?_
  intro s a s' hs _ hstep
  cases fifoSteps_of_step hstep with
  | dispatch hr hi hp => exact .next hs trivial (uni_step_dispatch hr hi hp)
  | skip _ _ => exact hs
  | act _ hu => exact .next hs trivial hu

/-! ## The order of first runs -/

/-- Where the sweep goes on. -/
def Fifo.cursor (s : Fifo) : Slot := if s.uni.running = none then s.pos else nextSlot s.pos

/-- The invariant: the processes that have not run yet are in the order of the sweep. -/
structure Ordered (s : Fifo) : Prop where
  wf : s.uni.Wf
  boot : s.uni.initproc = none → ∀ p, (s.uni.proc p).state = .unused
  pid : ∀ p, s.uni.Fresh p → (s.uni.proc p).pid < s.uni.nextpid
  fresh : ∀ p, s.uni.Fresh p → (s.uni.proc p).state = .used ∨ (s.uni.proc p).state = .runnable
  used : ∀ p, (s.uni.proc p).state = .used → s.uni.forking = some p
  order : ∀ p q, s.uni.Fresh p → s.uni.Fresh q → ahead s.cursor p < ahead s.cursor q →
    (s.uni.proc p).pid < (s.uni.proc q).pid

theorem cursor_act {u : Uni} (h : s.uni.running = none → u.running = none) :
    Fifo.cursor ⟨u, if s.uni.running ≠ none ∧ u.running = none then nextSlot s.pos else s.pos⟩ =
      s.cursor := by
  unfold Fifo.cursor
  by_cases hs : s.uni.running = none
  · simp [hs, h hs]
  · by_cases hu : u.running = none <;> simp [hs, hu]

theorem Moves.running (hm : Moves u op u') :
    (∃ p, op = .dispatch p) ∨ u'.running = u.running ∨ u'.running = none := by
  cases hm with
  | dispatch => exact Or.inl ⟨_, rfl⟩
  | yield | sleep | kexit => exact Or.inr (Or.inr rfl)
  | _ => exact Or.inr (Or.inl rfl)

/-- A process that has not run after a step had not before, or is new. -/
theorem Becomes.fresh (hb : Becomes u op u' p) (hop : op ≠ .dispatch p) (hf : u'.Fresh p) :
    u.Fresh p ∧ (u'.proc p).pid = (u.proc p).pid ∧ Goes (u.proc p).state (u'.proc p).state ∨
    op.Allocates p ∧ (u'.proc p).pid = u.nextpid ∧ u'.nextpid = u.nextpid + 1 ∧
      ((u'.proc p).state = .used ∨ (u'.proc p).state = .runnable) := by
  cases hb with
  | free hu => exact absurd hu hf.1
  | stays hgoes hpid hran _ =>
    exact Or.inl ⟨⟨hgoes.live hf.1, hran ▸ hf.2⟩, hpid, hgoes⟩
  | dispatched hd _ _ => exact absurd hd hop
  | allocated ha _ hst hpid hnext _ _ => exact Or.inr ⟨ha, hpid, hnext, hst⟩

theorem Becomes.used (hb : Becomes u op u' p) (hp : (u'.proc p).state = .used) :
    (u.proc p).state = .used ∨ op.Allocates p := by
  cases hb with
  | free hu =>
    rw [hu] at hp
    cases hp
  | stays hgoes _ _ _ => exact Or.inl (hgoes.used hp)
  | dispatched _ _ hu =>
    subst hu
    simp [Uni.dispatch, Uni.setState] at hp
  | allocated ha _ _ _ _ _ _ => exact Or.inr ha

theorem forking_congr (hr : u'.running = u.running)
    (hf : ∀ i, (u'.proc i).fork = (u.proc i).fork) : u'.forking = u.forking := by
  unfold Uni.forking
  rw [hr]
  cases u.running with
  | none => rfl
  | some r => exact congrArg Fork.child (hf r)

/-- A process that is allocated and not runnable yet is the child of the process that runs. -/
theorem Moves.used (h : u.Wf) (hused : ∀ p, (u.proc p).state = .used → u.forking = some p)
    (hallows : Fifo.allows u op = true) (hm : Moves u op u') (p : Slot)
    (hp : (u'.proc p).state = .used) : u'.forking = some p := by
  have hold := (hm.becomes h p).used hp
  have keep (hr : u'.running = u.running) (hf : ∀ i, (u'.proc i).fork = (u.proc i).fork)
      (hnew : ¬op.Allocates p) : u'.forking = some p := by
    rw [forking_congr hr hf]
    exact hused p (hold.resolve_right hnew)
  have stop (hnone : u.forking = none) (hnew : ¬op.Allocates p) : u'.forking = some p := by
    have hsome := hused p (hold.resolve_right hnew)
    rw [hnone] at hsome
    cases hsome
  cases hm with
  | userinit _ _ =>
    have hp0 : p ≠ 0 := by
      intro hp0
      subst hp0
      simp [Uni.setState] at hp
    refine keep rfl (fun i => ?_) (by simp [UniOp.Allocates, hp0])
    refine (update_fork ?_ i).trans (update_fork ?_ i) <;> rfl
  | dispatch => cases hallows
  | yield _ => exact stop (of_decide_eq_true hallows) (by simp [UniOp.Allocates])
  | sleepPrepare _ _ => exact keep rfl (update_fork rfl) (by simp [UniOp.Allocates])
  | missed _ _ => exact keep rfl (fun _ => rfl) (by simp [UniOp.Allocates])
  | sleep _ _ => exact stop (of_decide_eq_true hallows) (by simp [UniOp.Allocates])
  | kexit hr _ hf =>
    exact stop (by simp [Uni.forking, hr, hf, Fork.child]) (by simp [UniOp.Allocates])
  | @alloc r np hr _ hf =>
    rcases hold with hold | hnew
    · have hsome := hused p hold
      simp [Uni.forking, hr, hf, Fork.child] at hsome
    · have hp : np = p := by simpa [UniOp.Allocates] using hnew
      simp [Uni.forking, Uni.allocproc, hr, Fork.child, hp]
  | allocFailed _ _ _ =>
    refine keep rfl (fun i => ?_) (by simp [UniOp.Allocates])
    refine (update_fork ?_ i).trans (update_fork ?_ i) <;> rfl
  | @setParent r np hr hf =>
    have hsome := hused p (hold.resolve_right (by simp [UniOp.Allocates]))
    have hp : np = p := by simpa [Uni.forking, hr, hf, Fork.child] using hsome
    simp [Uni.forking, hr, Fork.child, hp]
  | @forkDone r np hr hf =>
    -- the child of the fork becomes runnable
    have hsome := hused p (hold.resolve_right (by simp [UniOp.Allocates]))
    have hp' : np = p := by simpa [Uni.forking, hr, hf, Fork.child] using hsome
    subst hp'
    simp [Uni.setState] at hp
  | reap _ _ _ =>
    refine keep rfl (fun i => ?_) (by simp [UniOp.Allocates])
    refine (update_fork ?_ i).trans (update_fork ?_ i) <;> rfl

/-- Before `userinit` there are no processes. -/
theorem Moves.boot (h : u.Wf) (hboot : u.initproc = none → ∀ p, (u.proc p).state = .unused)
    (hm : Moves u op u') (hi : u'.initproc = none) (p : Slot) : (u'.proc p).state = .unused := by
  cases hm with
  | userinit _ _ => cases hi
  | @dispatch r _ hp =>
    have hu := hboot hi r
    rw [hp] at hu
    cases hu
  | _ => exact absurd (hboot hi _) (h.live ‹u.running = some _›)

theorem Wakes.not_allocates (hm : Wakes u op u') : ¬op.Allocates p := by
  cases hm <;> simp [UniOp.Allocates]

theorem Ticks.not_allocates (hm : Ticks u op u') : ¬op.Allocates p := by
  cases hm <;> simp [UniOp.Allocates]

namespace Ordered

theorem init : Ordered Fifo.init := by
  refine ⟨wf_of_reach (G := fun _ _ => True) .start, fun _ _ => rfl, ?_, ?_, nofun, ?_⟩
  · intro p hp
    exact absurd rfl hp.1
  · intro p hp
    exact absurd rfl hp.1
  · intro p _ hp
    exact absurd rfl hp.1

/-- In the scheduler, a process that has not run yet is runnable. -/
theorem runnable (h : Ordered s) (hr : s.uni.running = none) (hp : s.uni.Fresh p) :
    (s.uni.proc p).state = .runnable := by
  rcases h.fresh p hp with hu | hp
  · have hsome := h.used p hu
    simp [Uni.forking, hr] at hsome
  · exact hp

theorem skip (h : Ordered s) (hr : s.uni.running = none)
    (hpos : (s.uni.proc s.pos).state ≠ .runnable) : Ordered { s with pos := nextSlot s.pos } := by
  refine ⟨h.wf, h.boot, h.pid, h.fresh, h.used, fun p q hp hq hlt => ?_⟩
  have hne (i : Slot) (hi : s.uni.Fresh i) : i ≠ s.pos := by
    intro hi'
    subst hi'
    exact hpos (h.runnable hr hi)
  refine h.order p q hp hq ?_
  simp only [Fifo.cursor, hr, if_true] at hlt ⊢
  rw [← ahead_next (hne p hp), ← ahead_next (hne q hq)]
  omega

theorem dispatch (h : Ordered s) (hr : s.uni.running = none)
    (hpos : (s.uni.proc s.pos).state = .runnable) :
    Ordered { s with uni := s.uni.dispatch s.pos } := by
  have hproc (i : Slot) (hi : i ≠ s.pos) : (s.uni.dispatch s.pos).proc i = s.uni.proc i := by
    simp [Uni.dispatch, Uni.setState, hi]
  have hfresh (i : Slot) (hi : (s.uni.dispatch s.pos).Fresh i) : i ≠ s.pos ∧ s.uni.Fresh i := by
    have hne : i ≠ s.pos := by
      intro hne
      subst hne
      simp [Uni.Fresh, Uni.dispatch] at hi
    refine ⟨hne, hproc i hne ▸ hi.1, ?_⟩
    simpa [Uni.dispatch, hne] using hi.2
  refine ⟨h.wf.dispatch hpos, fun hi => ?_, fun i hi => ?_, fun i hi => ?_, fun i hi => ?_,
    fun i j hi hj hlt => ?_⟩
  · have hu := h.boot hi s.pos
    rw [hpos] at hu
    cases hu
  · obtain ⟨hne, hi⟩ := hfresh i hi
    rw [hproc i hne]
    exact h.pid i hi
  · obtain ⟨hne, hi⟩ := hfresh i hi
    rw [hproc i hne]
    exact h.fresh i hi
  · have hne : i ≠ s.pos := by
      intro hne
      subst hne
      simp [Uni.dispatch, Uni.setState] at hi
    have hsome := h.used i (hproc i hne ▸ hi)
    simp [Uni.forking, hr] at hsome
  · obtain ⟨hine, hi⟩ := hfresh i hi
    obtain ⟨hjne, hj⟩ := hfresh j hj
    rw [hproc i hine, hproc j hjne]
    refine h.order i j hi hj ?_
    simp only [Fifo.cursor, hr, if_true] at hlt ⊢
    simp only [Uni.dispatch, reduceCtorEq, if_false] at hlt
    rw [← ahead_next hine, ← ahead_next hjne]
    omega

/-- A step after which only new processes have not run that had before. -/
theorem next (h : Ordered s) (hwf : u.Wf)
    (hboot : u.initproc = none → ∀ p, (u.proc p).state = .unused)
    (hused : ∀ p, (u.proc p).state = .used → u.forking = some p)
    (hpid : s.uni.nextpid ≤ u.nextpid) (hrun : s.uni.running = none → u.running = none)
    (hnew : ∀ p, op.Allocates p → ∀ q, s.uni.Fresh q → ahead s.cursor q < ahead s.cursor p)
    (hone : ∀ p q, op.Allocates p → op.Allocates q → p = q)
    (hfresh : ∀ p, u.Fresh p → s.uni.Fresh p ∧ (u.proc p).pid = (s.uni.proc p).pid ∧
        Goes (s.uni.proc p).state (u.proc p).state ∨
      op.Allocates p ∧ (u.proc p).pid = s.uni.nextpid ∧ u.nextpid = s.uni.nextpid + 1 ∧
        ((u.proc p).state = .used ∨ (u.proc p).state = .runnable)) :
    Ordered ⟨u, if s.uni.running ≠ none ∧ u.running = none then nextSlot s.pos else s.pos⟩ := by
  refine ⟨hwf, hboot, fun p hp => ?_, fun p hp => ?_, hused, fun p q hp hq hlt => ?_⟩
  · rcases hfresh p hp with ⟨hold, heq, -⟩ | ⟨-, heq, hnext, -⟩
    · have := h.pid p hold
      simp only
      omega
    · simp only
      omega
  · rcases hfresh p hp with ⟨hold, -, hgoes⟩ | ⟨-, -, -, hst⟩
    · exact hgoes.fresh (h.fresh p hold)
    · exact hst
  · rw [cursor_act hrun] at hlt
    rcases hfresh p hp with ⟨hpold, hpeq, -⟩ | ⟨hpnew, hpeq, -, -⟩
    · rcases hfresh q hq with ⟨hqold, hqeq, -⟩ | ⟨-, hqeq, -, -⟩
      · have := h.order p q hpold hqold hlt
        simp only
        omega
      · have := h.pid p hpold
        simp only
        omega
    · rcases hfresh q hq with ⟨hqold, -, -⟩ | ⟨hqnew, -, -, -⟩
      · have := hnew p hpnew q hqold
        omega
      · rw [hone p q hpnew hqnew] at hlt
        omega

theorem moves (h : Ordered s) (hG : AllocsBehind s (.act op))
    (hallows : Fifo.allows s.uni op = true) (hm : Moves s.uni op u) :
    Ordered ⟨u, if s.uni.running ≠ none ∧ u.running = none then nextSlot s.pos else s.pos⟩ := by
  have hop (p : Slot) : op ≠ .dispatch p := by
    intro hop
    subst hop
    cases hallows
  refine h.next (h.wf.moves hm) (hm.boot h.wf h.boot) (hm.used h.wf h.used hallows) hm.nextpid_le
    (fun hr => ?_) (fun p hp q hq => ?_) (fun p q hp hq => ?_)
    fun p hp => (hm.becomes h.wf p).fresh (hop p) hp
  · rcases hm.running with ⟨p, hp⟩ | hsame | hnone
    · exact absurd hp (hop p)
    · rw [hsame]
      exact hr
    · exact hnone
  · rcases hp with hp | ⟨hp, -⟩
    · subst hp
      have hr : s.uni.running ≠ none := by cases hm; simp [*]
      have hcursor : s.cursor = nextSlot s.pos := if_neg hr
      rw [hcursor]
      exact hG p rfl q hq
    · -- `userinit` makes the first process
      subst hp
      cases hm with
      | userinit hi _ => exact absurd (h.boot hi q) hq.1
  · rcases hp with rfl | ⟨rfl, rfl⟩
    · rcases hq with hq | ⟨hq, -⟩ <;> cases hq
      rfl
    · rcases hq with hq | ⟨-, rfl⟩
      · cases hq
      · rfl

theorem act (h : Ordered s) (hG : AllocsBehind s (.act op)) (hallows : Fifo.allows s.uni op = true)
    (hs : s.uni.step op = some u) :
    Ordered ⟨u, if s.uni.running ≠ none ∧ u.running = none then nextSlot s.pos else s.pos⟩ := by
  obtain ⟨-, hm⟩ | hm | hm := moves_of_step hs
  · exact h.moves hG hallows hm
  · have hwf := h.wf.wakes hm
    have hno (p : Slot) : ¬op.Allocates p := hm.not_allocates
    obtain ⟨proc, rfl, hgoes⟩ := hm.goes
    refine h.next hwf (fun hi p => ?_) (fun p hp => ?_) (Nat.le_refl _) id
      (fun p hp => absurd hp (hno p)) (fun p _ hp => absurd hp (hno p)) fun p hp => Or.inl ?_
    · by_contra hlive
      exact (hgoes p).1.live hlive (h.boot hi p)
    · refine (forking_congr ?_ fun i => (hgoes i).2.2).trans (h.used p ((hgoes p).1.used hp))
      rfl
    · exact ⟨⟨(hgoes p).1.live hp.1, hp.2⟩, (hgoes p).2.1, (hgoes p).1⟩
  · have hwf := h.wf.ticks hm
    have hno (p : Slot) : ¬op.Allocates p := hm.not_allocates
    obtain ⟨hproc, hran, hrunning, hnext, hinit⟩ := hm.frame
    refine h.next hwf (fun hi p => ?_) (fun p hp => ?_) (Nat.le_of_eq hnext.symm)
      (fun hr => hrunning.trans hr)
      (fun p hp => absurd hp (hno p)) (fun p _ hp => absurd hp (hno p)) fun p hp => Or.inl ?_
    · rw [hproc]
      exact h.boot (hinit ▸ hi) p
    · rw [forking_congr hrunning fun i => by rw [hproc]]
      exact h.used p (hproc ▸ hp)
    · rw [Uni.Fresh, hproc, hran] at hp
      rw [hproc]
      exact ⟨hp, rfl, .same⟩

end Ordered

theorem ordered_of_reach (h : Reach Fifo.step AllocsBehind Fifo.init s) : Ordered s := by
  refine h.invariant Ordered.init fun s a s' hs hG hstep => ?_
  cases fifoSteps_of_step hstep with
  | dispatch hr _ hp => exact hs.dispatch hr hp
  | skip hr hp => exact hs.skip hr hp
  | act hallows hu => exact hs.act hG hallows hu

/-- **First runs are in the order of arrival.**  In every run whose allocations are behind the
    processes that have not run yet: if the scheduler dispatches a process for the first time,
    then no runnable process that has not run yet was allocated before it. -/
theorem first_runs_in_order (h : Reach Fifo.step AllocsBehind Fifo.init s)
    (hs : s.step .look = some s') (hp : s'.uni.running = some p) (hran : s.uni.ran p = false)
    (q : Slot) (hq : (s.uni.proc q).state = .runnable) (hqran : s.uni.ran q = false) :
    ¬(s.uni.proc q).pid < (s.uni.proc p).pid := by
  have hord := ordered_of_reach h
  cases fifoSteps_of_step hs with
  | skip hr _ =>
    rw [hr] at hp
    cases hp
  | dispatch hr _ hpos =>
    obtain rfl : s.pos = p := Option.some.inj hp
    by_cases hqp : q = s.pos
    · rw [hqp]
      exact Nat.lt_irrefl _
    · -- the sweep is at `p`, so `q` is behind it
      have hcursor : s.cursor = s.pos := if_pos hr
      have hlt : ahead s.cursor s.pos < ahead s.cursor q := by
        rw [hcursor, ahead_self]
        exact ahead_pos hqp
      have hpfresh : s.uni.Fresh s.pos := ⟨by simp [hpos], hran⟩
      have hqfresh : s.uni.Fresh q := ⟨by simp [hq], hqran⟩
      exact Nat.lt_asymm (hord.order s.pos q hpfresh hqfresh hlt)

/-- The running process forks a child into slot `np`. -/
def forkInto (np : Slot) : List FifoOp :=
  [.act (.alloc np true), .act .setParent, .act .forkDone]

/-- The running process sleeps on `chan`. -/
def sleepOn (chan : ℕ) : List FifoOp := [.act (.sleepPrepare chan), .act .sleep]

/-- The first process forks two children and waits. -/
def twoChildren : List FifoOp :=
  [.act .userinit, .look] ++ forkInto 1 ++ forkInto 2 ++ sleepOn 1

theorem first_runs_in_order_two : ∃ s s', Reach Fifo.step AllocsBehind Fifo.init s ∧
    s.step .look = some s' ∧ s'.uni.running = some 1 ∧ s.uni.ran 1 = false ∧
    (s.uni.proc 2).state = .runnable ∧ s.uni.ran 2 = false ∧
    ¬(s.uni.proc 2).pid < (s.uni.proc 1).pid := by
  have hfacts : (Lib.run (guarded Fifo.step AllocsBehind) twoChildren Fifo.init).map
      (fun s => ((s.step .look).map fun s' => s'.uni.running, s.uni.ran 1,
        (s.uni.proc 2).state, s.uni.ran 2)) =
      some (some (some 1), false, .runnable, false) := by decide +kernel
  obtain ⟨s, hs, hfacts⟩ := Option.map_eq_some_iff.1 hfacts
  simp only [Prod.mk.injEq, Option.map_eq_some_iff] at hfacts
  obtain ⟨⟨s', hs', hr⟩, h1, hst, h2⟩ := hfacts
  have hreach := Reach.of_run twoChildren hs
  exact ⟨s, s', hreach, hs', hr, h1, hst, h2, first_runs_in_order hreach hs' hr h1 2 hst h2⟩

/-- The first child exits and wakes up its parent, the second one sleeps; the parent frees the
    slot of the first child and waits again.  Then the second child is woken up, forks a child into
    the freed slot, another one behind itself, and sleeps. -/
def slotReused : List FifoOp :=
  twoChildren ++ [.look, .act (.wakeup 1 0), .act .kexit] ++ [.look] ++ sleepOn 2 ++
    List.replicate 62 .look ++ [.act (.reap 1)] ++ sleepOn 1 ++
    [.act (.wakeup 2 2), .look, .look] ++ forkInto 1 ++ forkInto 3 ++ sleepOn 2

theorem late_first_run : ∃ s s', Reachable Fifo.step Fifo.init s ∧ s.step .look = some s' ∧
    s'.uni.running = some 3 ∧ s.uni.ran 3 = false ∧
    (s.uni.proc 1).state = .runnable ∧ s.uni.ran 1 = false ∧
    (s.uni.proc 1).pid < (s.uni.proc 3).pid := by
  have hfacts : (Lib.run Fifo.step slotReused Fifo.init).map
      (fun s => ((s.step .look).map fun s' => s'.uni.running, s.uni.ran 3,
        (s.uni.proc 1).state, s.uni.ran 1, (s.uni.proc 1).pid, (s.uni.proc 3).pid)) =
      some (some (some 3), false, .runnable, false, 4, 5) := by decide +kernel
  obtain ⟨s, hs, hfacts⟩ := Option.map_eq_some_iff.1 hfacts
  simp only [Prod.mk.injEq, Option.map_eq_some_iff] at hfacts
  obtain ⟨⟨s', hs', hr⟩, h3, hst, h1, hpid1, hpid3⟩ := hfacts
  refine ⟨s, s', Reachable.of_run slotReused hs, hs', hr, h3, hst, h1, ?_⟩
  rw [hpid1, hpid3]
  decide

end Xv6
