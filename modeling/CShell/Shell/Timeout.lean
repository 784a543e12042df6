/-
  C-Shell formalization — the wait with a timeout (`terminal.c`).

  `wait_foreground_group_timeout` arms an alarm and then waits for the
  processes of a group, one `waitpid` after the other.  The handler of the
  alarm sets a flag, which the loop looks at only after a `waitpid` that was
  interrupted.  The model has the loop with its places between two
  instructions that matter, the reports the kernel has for the group, and the
  handler of the alarm, which may run at any place.  That the alarm fires means
  here that the handler runs and sets `resume_alarm_fired`, not that the timer
  has expired, which is before.

  `NotMissed`: once the alarm has fired, the loop returns on its own, without
  waiting for anything more, and it returns 3 unless the processes had all
  finished or one had stopped before.

  * `notMissed_iff_alarmSafe`: a run has this property throughout iff the
    alarm fires while the shell is blocked in `waitpid`, or after it was
    interrupted there and before the flag is looked at, or when the processes
    have all finished or one has stopped;
  * `alarm_before_waitpid`: otherwise the loop waits without an alarm.
-/
import Mathlib.Data.List.Nodup
import CShell.Shell.JobControl

namespace CShell

open Lib

/-! ## The loop -/

/-- What `waitpid` returns for the group. -/
inductive WaitEvent where
  | report (pid : ℕ) (st : Status)
  /-- `ECHILD`: the group has no children left -/
  | noChild
  deriving DecidableEq, Repr

/-- The body of the loop after `waitpid` has returned. -/
def Wait.event (w : Wait) : WaitEvent → Wait × Option WaitResult
  | .report pid st => w.got pid st
  | .noChild => (w, some w.result)

/-- A process group; its processes are different. -/
structure WaitGroup where
  pgid : ℕ
  pids : List ℕ
  nodup : pids.Nodup

/-- Where the loop is. -/
inductive TimedPlace where
  /-- before `finished_count < process_count` -/
  | testing
  /-- in `waitpid` -/
  | waiting
  | got (e : WaitEvent)
  /-- `waitpid` was interrupted, the flag is not looked at yet -/
  | eintr
  | returned (r : WaitResult)
  deriving DecidableEq, Repr

/-- The loop of `wait_foreground_group_timeout`. -/
structure TimedWait where
  wait : Wait
  /-- what `waitpid` has to return, in order -/
  pending : List WaitEvent
  place : TimedPlace
  /-- `timeout_seconds > 0` -/
  armed : Bool
  /-- `resume_alarm_fired` -/
  fired : Bool
  /-- the group was done when the alarm fired; not a variable of the source -/
  excused : Bool
  deriving DecidableEq, Repr

/-- After the alarm has been armed. -/
def TimedWait.start (g : WaitGroup) (timeout : ℕ) : TimedWait :=
  { wait := .start g.pgid (g.pids.map some)
    pending := []
    place := .testing
    armed := 0 < timeout
    fired := false
    excused := false }

/-- What can happen during the wait. -/
inductive TimedAct where
  /-- the group changes: `waitpid` has something more to return -/
  | arrive (e : WaitEvent)
  /-- the handler of `SIGALRM` runs -/
  | alarm
  /-- another signal interrupts `waitpid` -/
  | signal
  /-- the loop goes on -/
  | go
  deriving DecidableEq, Repr

/-- The process has finished. -/
def WaitEvent.ends (pid : Option ℕ) : WaitEvent → Bool
  | .report p st => pid = some p && st.terminated
  | .noChild => false

/-- A process has stopped, or there is none left. -/
def WaitEvent.stops : WaitEvent → Bool
  | .report _ st => st = .stopped
  | .noChild => true

/-- The processes have all finished, or one has stopped. -/
def Wait.done (w : Wait) (es : List WaitEvent) : Bool :=
  es.any WaitEvent.stops || w.pids.all fun e => e.2 || es.any (·.ends e.1)

namespace TimedWait

/-- What `waitpid` has returned or has to return. -/
def events (s : TimedWait) : List WaitEvent :=
  match s.place with
  | .got e => e :: s.pending
  | _ => s.pending

/-- The group is done, whether the loop knows it or not. -/
def done (s : TimedWait) : Bool := s.wait.done s.events

/-- The shell sleeps in `waitpid`. -/
def Blocked (s : TimedWait) : Prop := s.place = .waiting ∧ s.pending = []

instance (s : TimedWait) : Decidable s.Blocked := inferInstanceAs (Decidable (_ ∧ _))

/-- The next instruction of the loop; `none` if there is none, or `waitpid` blocks. -/
def go (s : TimedWait) : Option TimedWait :=
  match s.place with
  | .testing =>
    if s.wait.pids.all Prod.snd then some { s with place := .returned s.wait.result }
    else some { s with place := .waiting }
  | .waiting =>
    match s.pending with
    | [] => none
    | e :: es => some { s with place := .got e, pending := es }
  | .got e =>
    match s.wait.event e with
    | (w, some r) => some { s with wait := w, place := .returned r }
    | (w, none) => some { s with wait := w, place := .testing }
  | .eintr =>
    if s.fired then some { s with place := .returned .timedOut }
    else some { s with place := .testing }
  | .returned _ => none

/-- The loop has returned. -/
def returned (s : TimedWait) : Bool :=
  match s.place with
  | .returned _ => true
  | _ => false

/-- One step of the loop or of its surroundings.  `.alarm` is the run of the handler: a report that
    arrives between the expiry of the timer and that run comes before it. -/
def step (s : TimedWait) : TimedAct → Option TimedWait
  | .arrive e => some { s with pending := s.pending ++ [e] }
  | .alarm =>
    if s.armed ∧ ¬s.fired ∧ ¬s.returned then
      -- the kernel looks for a report before it looks for a signal
      some { s with
        fired := true
        excused := s.done
        place := if s.Blocked then .eintr else s.place }
    else none
  | .signal => if s.Blocked then some { s with place := .eintr } else none
  | .go => s.go

end TimedWait

/-- The alarm interrupts `waitpid`, or comes right after another signal has, or the group is
    done. -/
def AlarmSafe (s : TimedWait) (a : TimedAct) : Prop :=
  a = .alarm → s.Blocked ∨ s.place = .eintr ∨ s.done = true

instance (s : TimedWait) (a : TimedAct) : Decidable (AlarmSafe s a) :=
  inferInstanceAs (Decidable (_ → _))

/-- Once the alarm has fired, the loop does not sleep in `waitpid`; it returns on its own, and it
    returns 3 unless the group was done when the alarm fired. -/
def NotMissed (s : TimedWait) : Prop :=
  s.fired = true → ¬s.Blocked ∧
    ∃ n s' r, run TimedWait.step (List.replicate n .go) s = some s' ∧
      s'.place = .returned r ∧ (s.excused = false → r = .timedOut)

/-! ## What the loop returns -/

/-- What the loop returns for the given events; `none` if it goes on. -/
def Wait.settle : List WaitEvent → Wait → Option WaitResult
  | [], _ => none
  | e :: es, w =>
    match w.event e with
    | (_, some r) => some r
    | (w, none) => settle es w

/-- The same from the test of the loop on. -/
def Wait.test (es : List WaitEvent) (w : Wait) : Option WaitResult :=
  if w.pids.all Prod.snd then some w.result else w.settle es

/-- What the loop returns if nothing more happens. -/
def TimedWait.outcome (s : TimedWait) : Option WaitResult :=
  match s.place with
  | .testing => s.wait.test s.pending
  | .waiting => s.wait.settle s.pending
  | .got e => s.wait.settle (e :: s.pending)
  | .eintr => if s.fired then some .timedOut else s.wait.test s.pending
  | .returned r => some r

/-! ## The entries of a group -/

variable {w w' : Wait} {pid : ℕ} {st : Status} {es : List WaitEvent} {s s' : TimedWait}
  {r : WaitResult} {a : TimedAct}

/-- The entries after a process has finished. -/
def endEntry (pid : ℕ) (e : Option ℕ × Bool) : Option ℕ × Bool :=
  if e.1 = some pid then (e.1, true) else e

theorem map_endEntry_of_not_mem {l : List (Option ℕ × Bool)} (h : some pid ∉ l.map Prod.fst) :
    l.map (endEntry pid) = l := by
  refine (List.map_congr_left fun e he => ?_).trans (List.map_id l)
  have hne : e.1 ≠ some pid := fun heq => h (heq ▸ List.mem_map_of_mem he)
  exact if_neg hne

theorem Wait.finish_pids (hn : (w.pids.map Prod.fst).Nodup) :
    (w.finish pid).pids = w.pids.map (endEntry pid) := by
  rw [Wait.finish]
  split
  · rename_i pids _ hfound
    obtain ⟨pre, e, e', post, hpids, hpids', he⟩ := exists_of_updateFirst hfound
    obtain ⟨⟨he1, -⟩, he'⟩ := Option.ite_none_right_eq_some.1 he
    cases he'
    rw [hpids, List.map_append, List.map_cons] at hn
    -- the other entries are for other processes
    have hpre : some pid ∉ pre.map Prod.fst := by
      intro hmem
      exact (List.nodup_append.1 hn).2.2 _ hmem _ (by simp [he1]) rfl
    have hpost : some pid ∉ post.map Prod.fst := by
      rw [← he1]
      exact (List.nodup_cons.1 (List.nodup_append.1 hn).2.1).1
    simp only [hpids, hpids', List.map_append, List.map_cons, map_endEntry_of_not_mem hpre,
      map_endEntry_of_not_mem hpost, endEntry, he1, if_true]
  · rename_i hnone
    refine ((List.map_congr_left fun e he => ?_).trans (List.map_id _)).symm
    have hnot := updateFirst_eq_none.1 hnone e he
    rw [endEntry]
    split
    · rename_i he1
      have he2 : e.2 = true := by simpa [he1] using hnot
      rw [id, ← he2]
    · rfl

/-- The body of the loop for a report that is not a stop. -/
theorem Wait.got_of_ne (hn : (w.pids.map Prod.fst).Nodup) (pid : ℕ) (hst : st ≠ .stopped) :
    ∃ w', w.got pid st = (w', if w'.pids.all Prod.snd then some w'.result else none) ∧
      w'.pids = if st.terminated then w.pids.map (endEntry pid) else w.pids := by
  rw [Wait.got, if_neg hst]
  refine ⟨_, rfl, ?_⟩
  split
  · exact Wait.finish_pids hn
  · rfl

theorem map_endEntry_fst {l : List (Option ℕ × Bool)} :
    (l.map (endEntry pid)).map Prod.fst = l.map Prod.fst := by
  rw [List.map_map]
  refine List.map_congr_left fun e _ => ?_
  simp only [Function.comp, endEntry]
  split <;> rfl

theorem Wait.done_report (hst : st ≠ .stopped)
    (hpids : w'.pids = if st.terminated then w.pids.map (endEntry pid) else w.pids) :
    w.done (.report pid st :: es) = w'.done es := by
  have hstops : WaitEvent.stops (.report pid st) = false := by simp [WaitEvent.stops, hst]
  simp only [Wait.done, List.any_cons, hstops, Bool.false_or, hpids]
  cases hterm : st.terminated with
  | false => simp [WaitEvent.ends, hterm]
  | true =>
    simp only [if_true, List.all_map]
    congr 2
    funext e
    by_cases he : e.1 = some pid <;> simp [WaitEvent.ends, endEntry, he, hterm]

theorem Wait.done_of_all (hall : w.pids.all Prod.snd = true) : w.done es = true := by
  simp only [Wait.done, Bool.or_eq_true, List.all_eq_true] at hall ⊢
  exact Or.inr fun e he => Or.inl (hall e he)

/-- **The loop returns for the given events iff they say that the group is done.** -/
theorem Wait.settle_isSome (hn : (w.pids.map Prod.fst).Nodup) (hopen : w.pids.all Prod.snd = false) :
    (w.settle es).isSome = w.done es := by
  induction es generalizing w with
  | nil => simp [Wait.settle, Wait.done, hopen]
  | cons e es ih =>
    cases e with
    | noChild => simp [Wait.settle, Wait.event, Wait.done, WaitEvent.stops]
    | report pid st =>
      by_cases hst : st = .stopped
      · simp [Wait.settle, Wait.event, Wait.got, Wait.done, WaitEvent.stops, hst]
      · obtain ⟨w', hgot, hpids⟩ := Wait.got_of_ne hn pid hst
        have hn' : (w'.pids.map Prod.fst).Nodup := by
          rw [hpids]
          split
          · rw [map_endEntry_fst]
            exact hn
          · exact hn
        rw [Wait.done_report hst hpids, Wait.settle, Wait.event, hgot]
        cases hall : w'.pids.all Prod.snd with
        | false => exact ih hn' hall
        | true =>
          rw [Wait.done_of_all hall]
          rfl

theorem Wait.settle_append {es' : List WaitEvent} (h : w.settle es = some r) :
    w.settle (es ++ es') = some r := by
  induction es generalizing w with
  | nil => cases h
  | cons e es ih =>
    simp only [List.cons_append, Wait.settle] at h ⊢
    split at h
    · exact h
    · exact ih h

theorem Wait.test_isSome (hn : (w.pids.map Prod.fst).Nodup) : (w.test es).isSome = w.done es := by
  rw [Wait.test]
  cases hall : w.pids.all Prod.snd with
  | false => exact Wait.settle_isSome hn hall
  | true => rw [Wait.done_of_all hall, if_pos rfl, Option.isSome_some]

theorem Wait.test_append {es' : List WaitEvent} (h : w.test es = some r) :
    w.test (es ++ es') = some r := by
  unfold Wait.test at h ⊢
  split at h
  · rw [if_pos ‹_›]
    exact h
  · rw [if_neg ‹_›]
    exact Wait.settle_append h

/-! ## The invariant -/

/-- What the loop keeps. -/
structure TimedWait.Wf (s : TimedWait) : Prop where
  nodup : (s.wait.pids.map Prod.fst).Nodup
  /-- `waitpid` is called only if a process has not finished -/
  unfinished : s.place = .waiting ∨ (∃ e, s.place = .got e) → s.wait.pids.all Prod.snd = false

theorem TimedWait.Wf.start (g : WaitGroup) (timeout : ℕ) : (TimedWait.start g timeout).Wf := by
  constructor
  · have hfst : ((TimedWait.start g timeout).wait.pids.map Prod.fst) = g.pids.map some := by
      simp [TimedWait.start, Wait.start, Function.comp_def]
    rw [hfst]
    exact List.Nodup.map (Option.some_injective ℕ) g.nodup
  · rintro (h | ⟨e, h⟩) <;> cases h

theorem Wait.event_fst (hn : (w.pids.map Prod.fst).Nodup) (e : WaitEvent) :
    (w.event e).1.pids.map Prod.fst = w.pids.map Prod.fst := by
  cases e with
  | noChild => rfl
  | report pid st =>
    by_cases hst : st = .stopped
    · simp [Wait.event, Wait.got, hst]
    · obtain ⟨w', hgot, hpids⟩ := Wait.got_of_ne hn pid hst
      rw [Wait.event, hgot, hpids]
      split
      · exact map_endEntry_fst
      · rfl

/-- The loop goes on only if a process has not finished. -/
theorem Wait.event_none {e : WaitEvent} (hn : (w.pids.map Prod.fst).Nodup)
    (h : w.event e = (w', none)) : w'.pids.all Prod.snd = false := by
  cases e with
  | noChild => cases h
  | report pid st =>
    by_cases hst : st = .stopped
    · simp [Wait.event, Wait.got, hst] at h
    · obtain ⟨w'', hgot, -⟩ := Wait.got_of_ne hn pid hst
      rw [Wait.event, hgot] at h
      obtain ⟨rfl, hnone⟩ := Prod.mk.inj h
      simpa using hnone

/-- The ways the loop can go on. -/
inductive Going (s : TimedWait) : TimedWait → Prop where
  | finished : s.place = .testing → s.wait.pids.all Prod.snd = true →
      Going s { s with place := .returned s.wait.result }
  | call : s.place = .testing → s.wait.pids.all Prod.snd = false →
      Going s { s with place := .waiting }
  | wake {e : WaitEvent} {es : List WaitEvent} : s.place = .waiting → s.pending = e :: es →
      Going s { s with place := .got e, pending := es }
  | ret {e : WaitEvent} {w : Wait} {r : WaitResult} : s.place = .got e →
      s.wait.event e = (w, some r) → Going s { s with wait := w, place := .returned r }
  | loop {e : WaitEvent} {w : Wait} : s.place = .got e → s.wait.event e = (w, none) →
      Going s { s with wait := w, place := .testing }
  | timedOut : s.place = .eintr → s.fired = true →
      Going s { s with place := .returned .timedOut }
  | again : s.place = .eintr → s.fired = false → Going s { s with place := .testing }

theorem going_of_go (h : s.go = some s') : Going s s' := by
  unfold TimedWait.go at h
  split at h
  · split at h
    · cases h
      exact .finished ‹_› ‹_›
    · cases h
      exact .call ‹_› (Bool.eq_false_iff.2 ‹_›)
  · split at h
    · cases h
    · cases h
      exact .wake ‹_› ‹_›
  · split at h
    · cases h
      exact .ret ‹_› ‹_›
    · cases h
      exact .loop ‹_› ‹_›
  · split at h
    · cases h
      exact .timedOut ‹_› ‹_›
    · cases h
      exact .again ‹_› (Bool.eq_false_iff.2 ‹_›)
  · cases h

namespace TimedWait.Wf

theorem go (h : s.Wf) (hs : s.go = some s') : s'.Wf := by
  cases going_of_go hs with
  | finished | timedOut | again => exact ⟨h.nodup, by simp⟩
  | call _ hall => exact ⟨h.nodup, fun _ => hall⟩
  | wake hp _ => exact ⟨h.nodup, fun _ => h.unfinished (Or.inl hp)⟩
  | @ret e _ _ _ he =>
    have hfst := Wait.event_fst h.nodup e
    rw [he] at hfst
    exact ⟨hfst ▸ h.nodup, by simp⟩
  | @loop e _ _ he =>
    have hfst := Wait.event_fst h.nodup e
    rw [he] at hfst
    exact ⟨hfst ▸ h.nodup, by simp⟩

theorem step (h : s.Wf) (hs : s.step a = some s') : s'.Wf := by
  cases a with
  | arrive e =>
    cases hs
    exact ⟨h.nodup, h.unfinished⟩
  | alarm =>
    obtain ⟨-, hs⟩ := Option.ite_none_right_eq_some.1 hs
    cases hs
    refine ⟨h.nodup, ?_⟩
    by_cases hb : s.Blocked
    · simp [hb]
    · simpa [hb] using h.unfinished
  | signal =>
    obtain ⟨-, hs⟩ := Option.ite_none_right_eq_some.1 hs
    cases hs
    exact ⟨h.nodup, by simp⟩
  | go => exact h.go hs

end TimedWait.Wf

/-- What the loop returns does not depend on how far it is. -/
theorem TimedWait.outcome_go (h : s.Wf) (hs : s.go = some s') : s'.outcome = s.outcome := by
  cases going_of_go hs with
  | finished hp hall => simp [TimedWait.outcome, Wait.test, hp, hall]
  | call hp hall => simp [TimedWait.outcome, Wait.test, hp, hall]
  | wake hp he => simp [TimedWait.outcome, hp, he]
  | ret hp he => simp [TimedWait.outcome, hp, he, Wait.settle]
  | loop hp he =>
    simp [TimedWait.outcome, hp, he, Wait.settle, Wait.test, Wait.event_none h.nodup he]
  | timedOut hp hf => simp [TimedWait.outcome, hp, hf]
  | again hp hf => simp [TimedWait.outcome, hp, hf]

theorem TimedWait.outcome_isSome (h : s.Wf) (hr : s.returned = false)
    (he : s.place = .eintr → s.fired = false) : s.outcome.isSome = s.done := by
  cases hp : s.place with
  | testing =>
    simp only [TimedWait.outcome, TimedWait.done, TimedWait.events, hp]
    exact Wait.test_isSome h.nodup
  | waiting =>
    simp only [TimedWait.outcome, TimedWait.done, TimedWait.events, hp]
    exact Wait.settle_isSome h.nodup (h.unfinished (Or.inl hp))
  | got e =>
    simp only [TimedWait.outcome, TimedWait.done, TimedWait.events, hp]
    exact Wait.settle_isSome h.nodup (h.unfinished (Or.inr ⟨e, hp⟩))
  | eintr =>
    simp only [TimedWait.outcome, TimedWait.done, TimedWait.events, hp, he hp]
    exact Wait.test_isSome h.nodup
  | returned r => simp [TimedWait.returned, hp] at hr

theorem TimedWait.outcome_of_blocked (h : s.Blocked) : s.outcome = none := by
  simp [TimedWait.outcome, h.1, h.2, Wait.settle]

/-- If the loop returns for what has happened, it still does when more happens. -/
theorem TimedWait.outcome_arrive (e : WaitEvent) (h : s.outcome = some r) :
    { s with pending := s.pending ++ [e] }.outcome = some r := by
  unfold TimedWait.outcome at h ⊢
  cases hp : s.place with
  | testing =>
    simp only [hp] at h
    exact Wait.test_append h
  | waiting =>
    simp only [hp] at h
    exact Wait.settle_append h
  | got e' =>
    simp only [hp, ← List.cons_append] at h ⊢
    exact Wait.settle_append h
  | eintr =>
    simp only [hp] at h ⊢
    split at h
    · rw [if_pos ‹_›]
      exact h
    · rw [if_neg ‹_›]
      exact Wait.test_append h
  | returned r' =>
    simp only [hp] at h
    exact h

/-! ## The loop returns -/

/-- The instructions left, at most. -/
def TimedWait.left (s : TimedWait) : ℕ :=
  3 * s.pending.length + match s.place with
    | .returned _ => 0
    | .waiting => 1
    | .testing => 2
    | .got _ | .eintr => 3

theorem Going.left_lt (h : Going s s') : s'.left < s.left := by
  cases h with
  | wake hp he =>
    simp only [TimedWait.left, hp, he, List.length_cons]
    omega
  | finished hp _ | call hp _ | ret hp _ | loop hp _ | timedOut hp _ | again hp _ =>
    simp [TimedWait.left, hp]

/-- The loop does not block before it returns. -/
theorem TimedWait.go_of_outcome (h : s.outcome = some r) :
    s.place = .returned r ∨ ∃ s', s.go = some s' := by
  unfold TimedWait.outcome at h
  unfold TimedWait.go
  cases hp : s.place with
  | testing =>
    right
    by_cases hall : s.wait.pids.all Prod.snd = true
    · exact ⟨_, if_pos hall⟩
    · exact ⟨_, if_neg hall⟩
  | waiting =>
    right
    cases he : s.pending with
    | nil =>
      simp only [hp, he, Wait.settle] at h
      cases h
    | cons e es => exact ⟨_, rfl⟩
  | got e =>
    right
    rcases he : s.wait.event e with ⟨w, _ | r⟩ <;> simp [he]
  | eintr =>
    right
    by_cases hf : s.fired = true
    · exact ⟨_, if_pos hf⟩
    · exact ⟨_, if_neg hf⟩
  | returned r' =>
    left
    simp only [hp] at h
    rw [Option.some.inj h]

theorem TimedWait.returns_of_outcome (hwf : s.Wf) (h : s.outcome = some r) :
    ∃ n s', run TimedWait.step (List.replicate n .go) s = some s' ∧ s'.place = .returned r := by
  -- by the number of instructions left
  generalize hm : s.left = m
  induction m using Nat.strongRecOn generalizing s with
  | ind m ih =>
    rcases TimedWait.go_of_outcome h with hp | ⟨s₁, hs₁⟩
    · exact ⟨0, s, rfl, hp⟩
    · have hlt := (going_of_go hs₁).left_lt
      have ho := (TimedWait.outcome_go hwf hs₁).trans h
      obtain ⟨n, s', hrun, hp⟩ := ih s₁.left (hm ▸ hlt) (hwf.go hs₁) ho rfl
      refine ⟨n + 1, s', ?_, hp⟩
      rw [List.replicate_succ, run, TimedWait.step, hs₁]
      exact hrun

theorem TimedWait.outcome_of_returns {n : ℕ} (hwf : s.Wf)
    (hrun : run TimedWait.step (List.replicate n .go) s = some s') (hp : s'.place = .returned r) :
    s.outcome = some r := by
  induction n generalizing s with
  | zero =>
    cases hrun
    simp [TimedWait.outcome, hp]
  | succ n ih =>
    obtain ⟨s₁, hs₁, hrun⟩ := Option.bind_eq_some_iff.1 hrun
    rw [← TimedWait.outcome_go hwf hs₁]
    exact ih (hwf.go hs₁) hrun

theorem notMissed_iff (hwf : s.Wf) : NotMissed s ↔
    (s.fired = true → ∃ r, s.outcome = some r ∧ (s.excused = false → r = .timedOut)) := by
  constructor
  · intro h hf
    obtain ⟨-, n, s', r, hrun, hp, hr⟩ := h hf
    exact ⟨r, TimedWait.outcome_of_returns hwf hrun hp, hr⟩
  · intro h hf
    obtain ⟨r, ho, hr⟩ := h hf
    obtain ⟨n, s', hrun, hp⟩ := TimedWait.returns_of_outcome hwf ho
    refine ⟨fun hb => ?_, n, s', r, hrun, hp, hr⟩
    rw [TimedWait.outcome_of_blocked hb] at ho
    cases ho

/-! ## The alarm -/

theorem TimedWait.outcome_fired {b : Bool} (he : s.place ≠ .eintr) :
    { s with fired := true, excused := b }.outcome = s.outcome := by
  unfold TimedWait.outcome
  cases hp : s.place with
  | eintr => exact absurd hp he
  | _ => rfl

theorem Going.flags (h : Going s s') : s'.fired = s.fired ∧ s'.excused = s.excused := by
  cases h <;> exact ⟨rfl, rfl⟩

/-- A safe step keeps the property. -/
theorem NotMissed.step (hwf : s.Wf) (h : NotMissed s) (ha : AlarmSafe s a)
    (hs : s.step a = some s') : NotMissed s' := by
  rw [notMissed_iff hwf] at h
  rw [notMissed_iff (hwf.step hs)]
  intro hf
  cases a with
  | arrive e =>
    cases hs
    obtain ⟨r, ho, hr⟩ := h hf
    exact ⟨r, TimedWait.outcome_arrive e ho, hr⟩
  | alarm =>
    obtain ⟨⟨-, hnot, hret⟩, hs⟩ := Option.ite_none_right_eq_some.1 hs
    cases hs
    by_cases hb : s.Blocked
    · exact ⟨.timedOut, by simp [TimedWait.outcome, hb], fun _ => rfl⟩
    · by_cases he : s.place = .eintr
      · exact ⟨.timedOut, by simp [TimedWait.outcome, hb, he], fun _ => rfl⟩
      · have hdone : s.done = true := by simpa [hb, he] using ha rfl
        have hsome : s.outcome.isSome := by
          rw [TimedWait.outcome_isSome hwf (Bool.eq_false_iff.2 hret) fun h => absurd h he]
          exact hdone
        obtain ⟨r, ho⟩ := Option.isSome_iff_exists.1 hsome
        refine ⟨r, ?_, by simp [hdone]⟩
        simp only [hb, if_false]
        rw [← ho]
        exact TimedWait.outcome_fired he
  | signal =>
    obtain ⟨hb, hs⟩ := Option.ite_none_right_eq_some.1 hs
    cases hs
    obtain ⟨r, ho, -⟩ := h hf
    rw [TimedWait.outcome_of_blocked hb] at ho
    cases ho
  | go =>
    obtain ⟨hfired, hexcused⟩ := (going_of_go hs).flags
    rw [hfired] at hf
    rw [TimedWait.outcome_go hwf hs, hexcused]
    exact h hf

/-- After an alarm that is not safe the loop waits for something more. -/
theorem not_notMissed (hwf : s.Wf) (ha : ¬AlarmSafe s a) (hs : s.step a = some s') :
    ¬NotMissed s' := by
  unfold AlarmSafe at ha
  push Not at ha
  obtain ⟨rfl, hb, he, hdone⟩ := ha
  rw [notMissed_iff (hwf.step hs)]
  obtain ⟨⟨-, -, hret⟩, hs⟩ := Option.ite_none_right_eq_some.1 hs
  cases hs
  intro h
  obtain ⟨r, ho, -⟩ := h rfl
  simp only [hb, if_false] at ho
  have hsome := TimedWait.outcome_isSome hwf (Bool.eq_false_iff.2 hret) fun h => absurd h he
  rw [← TimedWait.outcome_fired (b := s.done) he, ho] at hsome
  exact hdone hsome.symm

/-- **The timeout is not missed iff the alarm is safe.** -/
theorem notMissed_iff_alarmSafe (g : WaitGroup) (timeout : ℕ) (as : List TimedAct)
    (hr : (run TimedWait.step as (.start g timeout)).isSome) :
    Always TimedWait.step NotMissed as (.start g timeout) ↔
      Guarded TimedWait.step AlarmSafe as (.start g timeout) :=
  always_iff_guarded (I := fun s => s.Wf ∧ NotMissed s) (fun _ h => h.2)
    (fun _ _ _ h ha hs => ⟨h.1.step hs, h.2.step h.1 ha hs⟩)
    (fun _ _ _ h ha hs => not_notMissed h.1 ha hs) ⟨.start g timeout, nofun⟩ hr

/-- A job with one process. -/
def oneProcess : WaitGroup := ⟨7, [7], List.nodup_singleton 7⟩

theorem notMissed_iff_alarmSafe_waiting :
    (run TimedWait.step [.go, .alarm, .go] (.start oneProcess 5)).isSome ∧
      Always TimedWait.step NotMissed [.go, .alarm, .go] (.start oneProcess 5) :=
  ⟨by decide, (notMissed_iff_alarmSafe oneProcess 5 _ (by decide)).2 (by decide)⟩

/-- The alarm fires before the first `waitpid`: the loop sleeps in it, and returns 0 whenever the
    process exits. -/
theorem alarm_before_waitpid : ∃ s, run TimedWait.step [.alarm, .go] (.start oneProcess 5) = some s ∧
    s.fired = true ∧ s.excused = false ∧ s.Blocked ∧
    (run TimedWait.step [.arrive (.report 7 .exited), .go, .go] s).map TimedWait.place =
      some (.returned .finished) :=
  ⟨_, rfl, rfl, rfl, by decide, by decide⟩

end CShell
