/-
  Threads of a monitor that wake a channel first and change the state afterwards.

  After a `wakeup` nobody is left on the channel until the lock is released, since
  one registers with the lock.  So who has woken a channel may unblock those who
  would wait on it, without a further wakeup.

  * `WokenSince.quiet`: at a location that says that a channel has been woken, nobody is
    registered on it.
-/
import CShell.Lib.Inside

namespace Lib

variable {σ T L C A : Type}

/-- What is to be shown of the code: `woken l c` says that the channel `c` has been
    woken since the lock was taken. -/
structure WokenSince (M : Monitor σ T L C A) (woken : L → C → Prop) : Prop where
  enter : ∀ {a t l l'}, M.enter a t l = some l' → ∀ c, ¬woken l' c
  update : ∀ {a t l l' x y}, M.code a t l x = some (.update y l') → ∀ c, woken l' c → woken l c
  wakeup : ∀ {a t l l' x c}, M.code a t l x = some (.wakeup c l') →
    ∀ c', c' ≠ c → woken l' c' → woken l c'
  wait : ∀ {a t l l' x c}, M.code a t l x = some (.wait c l') → ∀ c', ¬woken l' c'

namespace WokenSince

variable {M : Monitor σ T L C A} {woken : L → C → Prop} {s s' : MonitorState σ T L C} {t u : T}
  {c : C} {l : L}

/-- `t`, which has the lock, has taken `u` off the channel `c`. -/
def Still (woken : L → C → Prop) (s : MonitorState σ T L C) (t u : T) (c : C) : Prop :=
  match s.place t with
  | .inside l => woken l c
  | .waking c' todo l => (c' = c ∧ u ∉ todo) ∨ (c' ≠ c ∧ woken l c)
  | _ => False

/-- Nobody waits on a channel of which a thread knows that all were woken; and no thread will come
    back from a wait with such a knowledge. -/
structure Inv (woken : L → C → Prop) (s : MonitorState σ T L C) : Prop where
  quiet : ∀ t u c, Still woken s t u c → ∀ l, (s.place u).Waits c l → s.chan u ≠ some c
  later : ∀ t l, (s.place t).later = some l → ∀ c, ¬woken l c

theorem holds_of_still (h : Still woken s t u c) : (s.place t).Holds := by
  rw [Still] at h
  split at h
  · rename_i hp
    rw [hp]
    trivial
  · rename_i hp
    rw [hp]
    trivial
  · cases h

theorem still_congr (hp : s'.place t = s.place t) : Still woken s' t u c ↔ Still woken s t u c := by
  rw [Still, Still, hp]

variable [DecidableEq T]

/-- A step of `t` to the place `p`: what it says to be woken was woken before, and it
    does not register. -/
theorem Inv.place {p : MonitorPlace T L C} (h : Inv woken s)
    (hstill : ∀ u c, Still woken ⟨s.shared, s.lock, s.chan, Function.update s.place t p⟩ t u c →
      Still woken s t u c)
    (hwaits : ∀ c l, p.Waits c l → (s.place t).Waits c l)
    (hlater : ∀ l, p.later = some l → ∀ c, ¬woken l c) (x : σ) (lock : Option T) :
    Inv woken ⟨x, lock, s.chan, Function.update s.place t p⟩ := by
  refine ⟨?_, ?_⟩
  · intro t' u c hs l hw
    have hs' : Still woken s t' u c := by
      by_cases htt : t' = t
      · rw [htt] at hs ⊢
        exact hstill u c hs
      · exact (still_congr (Function.update_of_ne htt _ _)).1 hs
    refine h.quiet t' u c hs' l ?_
    by_cases hut : u = t
    · rw [hut] at hw ⊢
      simp only [Function.update_self] at hw
      exact hwaits c l hw
    · simp only [Function.update_of_ne hut] at hw
      exact hw
  · intro u l hu
    by_cases hut : u = t
    · rw [hut] at hu
      simp only [Function.update_self] at hu
      exact hlater l hu
    · simp only [Function.update_of_ne hut] at hu
      exact h.later u l hu

/-- A step of `t` to a place without the lock. -/
theorem Inv.leave {p : MonitorPlace T L C} (h : Inv woken s) (hp : ¬p.Holds)
    (hwaits : ∀ c l, p.Waits c l → (s.place t).Waits c l)
    (hlater : ∀ l, p.later = some l → ∀ c, ¬woken l c) (x : σ) (lock : Option T) :
    Inv woken ⟨x, lock, s.chan, Function.update s.place t p⟩ := by
  refine h.place ?_ hwaits hlater x lock
  intro u c hs
  refine absurd (holds_of_still hs) ?_
  simpa using hp

/-- A step of a thread that waits, after which it still goes on at `l`. -/
theorem Inv.wait_on {p : MonitorPlace T L C} (h : Inv woken s) (hp : ¬p.Holds)
    (hwaits : ∀ c l, p.Waits c l → (s.place t).Waits c l) (hl : (s.place t).later = some l)
    (hl' : p.later = some l) (lock : Option T) :
    Inv woken ⟨s.shared, lock, s.chan, Function.update s.place t p⟩ := by
  refine h.leave hp hwaits ?_ s.shared lock
  intro l' hl''
  rw [hl'] at hl''
  cases hl''
  exact h.later t l hl

variable (hW : WokenSince M woken)
include hW

theorem inv_exec {a : A} {cmd : MonitorCmd σ L C} (h : Inv woken s)
    (hlock : ∀ u, (s.place u).Holds → u = t) (hp : s.place t = .inside l)
    (hc : M.code a t l s.shared = some cmd) : Inv woken (M.exec t cmd s) := by
  cases cmd with
  | update y l' =>
    refine h.place ?_ (fun _ _ h => by cases h) (fun _ h => by cases h) y s.lock
    intro u c hs
    simp only [Still, Function.update_self] at hs
    rw [Still, hp]
    exact hW.update hc c hs
  | wakeup c l' =>
    refine h.place ?_ (fun _ _ h => by cases h) (fun _ h => by cases h) s.shared s.lock
    intro u c' hs
    simp only [Still, Function.update_self] at hs
    rw [Still, hp]
    rcases hs with ⟨-, hu⟩ | ⟨hne, hw⟩
    · exact absurd (M.mem_threads u) hu
    · exact hW.wakeup hc c' hne.symm hw
  | wait c l' =>
    refine ⟨?_, ?_⟩
    · -- the thread that has the lock has just registered, and says nothing any more
      intro t' u c' hs
      have ht' := holds_of_still hs
      by_cases htt : t' = t
      · rw [htt] at hs
        simp [Still, Monitor.exec] at hs
      · simp only [Monitor.exec, Function.update_of_ne htt] at ht'
        exact absurd (hlock t' ht') htt
    · intro u lu hu
      by_cases hut : u = t
      · rw [hut] at hu
        simp only [Monitor.exec, Function.update_self] at hu
        cases hu
        exact hW.wait hc
      · simp only [Monitor.exec, Function.update_of_ne hut] at hu
        exact h.later u lu hu
  | release l' => exact h.leave id (fun _ _ h => by cases h) (fun _ h => by cases h) s.shared none

variable [DecidableEq C]

omit hW in
theorem Inv.wakeOne (h : Inv woken s) (c : C) (u : T) : Inv woken (Monitor.wakeOne c u s) := by
  have hstill : ∀ t v c', Still woken (Monitor.wakeOne c u s) t v c' → Still woken s t v c' := by
    intro t v c' hs
    rcases Discipline.wakeOne_place (c := c) (u := u) (s := s) t with ⟨hp, -⟩ | ⟨c'', l, -, hp⟩
    · exact (still_congr hp).1 hs
    · have hh := holds_of_still hs
      rw [hp] at hh
      cases hh
  refine ⟨?_, ?_⟩
  · intro t v c' hs l hw hc
    exact h.quiet t v c' (hstill t v c' hs) l (Discipline.wakeOne_waits hw)
      (Discipline.wakeOne_chan hc).1
  · intro t l hl
    rcases Discipline.wakeOne_place (c := c) (u := u) (s := s) t with ⟨hp, -⟩ | ⟨c', l', hs, hp⟩
    · rw [hp] at hl
      exact h.later t l hl
    · rw [hp] at hl
      refine h.later t l ?_
      rw [hs]
      exact hl

omit hW in
/-- A round of the loop of `wakeup`. -/
theorem Inv.waking_cons (h : Inv woken s) {todo : List T}
    (hp : s.place t = .waking c (u :: todo) l) :
    Inv woken { Monitor.wakeOne c u s with
      place := Function.update (Monitor.wakeOne c u s).place t (.waking c todo l) } := by
  have hp' : (Monitor.wakeOne c u s).place t = .waking c (u :: todo) l := by
    rcases Discipline.wakeOne_place (c := c) (u := u) (s := s) t with ⟨hp', -⟩ | ⟨c', l', hs, -⟩
    · rw [hp', hp]
    · rw [hp] at hs
      cases hs
  have h' := h.wakeOne c u
  refine ⟨?_, ?_⟩
  · intro t' v c' hs lv hw
    have hvt : v ≠ t := by
      rintro rfl
      simp only [Function.update_self] at hw
      cases hw
    simp only [Function.update_of_ne hvt] at hw
    by_cases htt : t' = t
    · rw [htt] at hs
      simp only [Still, Function.update_self] at hs
      by_cases hvu : v = u ∧ c' = c
      · intro hc
        exact (Discipline.wakeOne_chan hc).2 hvu.1 hvu.2
      · refine h'.quiet t v c' ?_ lv hw
        rw [Still, hp']
        refine hs.imp_left ?_
        rintro ⟨rfl, hv⟩
        refine ⟨rfl, ?_⟩
        rw [List.mem_cons, not_or]
        exact ⟨fun hv => hvu ⟨hv, rfl⟩, hv⟩
    · exact h'.quiet t' v c' ((still_congr (Function.update_of_ne htt _ _)).1 hs) lv hw
  · intro v lv hv
    by_cases hvt : v = t
    · rw [hvt] at hv
      simp only [Function.update_self] at hv
      cases hv
    · simp only [Function.update_of_ne hvt] at hv
      exact h'.later v lv hv

theorem inv_step {act : MonitorAct T A} (h : Inv woken s)
    (hlock : ∀ t u, (s.place t).Holds → (s.place u).Holds → u = t)
    (hs : M.step s act = some s') : Inv woken s' := by
  cases Monitor.takes_of_step hs with
  | @outside t a l r hp hr =>
    exact h.leave id (fun _ _ h => by cases h) (fun _ h => by cases h) r.1 s.lock
  | @enter t a l l' hp hn hl' =>
    refine h.place ?_ (fun _ _ h => by cases h) (fun _ h => by cases h) s.shared (some t)
    intro u c hs
    simp only [Still, Function.update_self] at hs
    exact absurd hs (hW.enter hl' c)
  | @code t a l cmd hp hc =>
    refine hW.inv_exec h ?_ hp hc
    intro u hu
    refine hlock t u ?_ hu
    rw [hp]
    trivial
  | wake hp => exact h.waking_cons hp
  | @woken t c l hp =>
    refine h.place ?_ (fun _ _ h => by cases h) (fun _ h => by cases h) s.shared s.lock
    intro u c' hs
    simp only [Still, Function.update_self] at hs
    rw [Still, hp]
    by_cases hc : c = c'
    · exact .inl ⟨hc, List.not_mem_nil⟩
    · exact .inr ⟨hc, hs⟩
  | @release t c l hp => exact h.wait_on id (hp ▸ fun _ _ => id) (hp ▸ rfl) rfl none
  | @sleep t c l hp _ => exact h.wait_on id (hp ▸ fun _ _ => id) (hp ▸ rfl) rfl s.lock
  | @stay t c l hp _ => exact h.wait_on id (fun _ _ h => by cases h) (hp ▸ rfl) rfl s.lock
  | @reacquire t l hp hn =>
    refine h.place ?_ (fun _ _ h => by cases h) (fun _ h => by cases h) s.shared (some t)
    intro u c hs
    simp only [Still, Function.update_self] at hs
    refine absurd hs (h.later t l ?_ c)
    rw [hp]
    rfl
  | @kill t c l hp => exact h.wait_on id (fun _ _ h => by cases h) (hp ▸ rfl) rfl s.lock

variable {G : MonitorState σ T L C → MonitorAct T A → Prop} {x₀ : σ} {l₀ : T → L}

theorem inv (h : Reach M.step G (Monitor.init x₀ l₀) s) : Inv woken s := by
  induction h with
  | start => exact ⟨fun _ _ _ h => (by cases h), fun _ _ h => (by cases h)⟩
  | next hr _ hs ih =>
    refine hW.inv_step ih ?_ hs
    intro t u ht hu
    exact Monitor.eq_of_holds hr hu ht

/-- **Nobody is left on a channel that has been woken.** -/
theorem quiet (h : Reach M.step G (Monitor.init x₀ l₀) s) (hp : s.place t = .inside l)
    (hw : woken l c) {lu : L} (hu : (s.place u).Waits c lu) : s.chan u ≠ some c := by
  refine (hW.inv h).quiet t u c ?_ lu hu
  rw [Still, hp]
  exact hw

end WokenSince

end Lib
