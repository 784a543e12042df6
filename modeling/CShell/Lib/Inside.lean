/-
  What the threads of a monitor know.

  `Knows` asks of the code that it keeps an invariant `J` of the protected state; that
  at each location `R` holds of the state, wherever the thread is, which no step of
  another thread disturbs; and that while a thread has the lock `K` holds of it as
  well.  `K` may be false while another thread is inside, since nobody looks then.

  * `Knows.always`: `J` holds in every state of a run;
  * `Knows.inside`: `K` holds of whoever is inside.
-/
import CShell.Lib.Monitor

namespace Lib

namespace MonitorPlace

variable {T L C : Type}

/-- The location of a thread, or where it goes on. -/
def loc : MonitorPlace T L C → L
  | outside l | inside l | waking _ _ l | prepared _ l | released _ l | asleep _ l | awake l => l

/-- Where a thread that has the lock is, or goes on after a wakeup. -/
def current : MonitorPlace T L C → Option L
  | inside l | waking _ _ l => some l
  | _ => none

/-- Where a thread that waits goes on. -/
def later : MonitorPlace T L C → Option L
  | prepared _ l | released _ l | asleep _ l | awake l => some l
  | _ => none

theorem holds_of_current {p : MonitorPlace T L C} {l : L} (h : p.current = some l) : p.Holds := by
  cases p with
  | inside l | waking c todo l => trivial
  | _ => cases h

theorem loc_of_later {p : MonitorPlace T L C} {l : L} (h : p.later = some l) :
    p.loc = l ∧ p.current = none := by
  cases p with
  | prepared | released | asleep | awake => exact ⟨Option.some.inj h, rfl⟩
  | _ => cases h

end MonitorPlace

variable {σ T L C A : Type}

/-- What is to be shown of the code, where it depends on what is `ok`. -/
structure Knows (M : Monitor σ T L C A) (ok : A → T → L → σ → Prop) (J : σ → Prop)
    (R K : T → L → σ → Prop) : Prop where
  outside : ∀ {a t l x r}, J x → R t l x → M.outside a t l x = some r →
    J r.1 ∧ R t r.2 r.1 ∧
      (∀ u l, u ≠ t → R u l x → R u l r.1) ∧ ∀ u l, u ≠ t → R u l x → K u l x → K u l r.1
  enter : ∀ {a t l l' x}, J x → R t l x → M.enter a t l = some l' → R t l' x ∧ K t l' x
  update : ∀ {a t l l' x y}, J x → R t l x → K t l x → ok a t l x →
    M.code a t l x = some (.update y l') →
      J y ∧ R t l' y ∧ K t l' y ∧ ∀ u l, u ≠ t → R u l x → R u l y
  wakeup : ∀ {a t l c l' x}, J x → R t l x → K t l x → ok a t l x →
    M.code a t l x = some (.wakeup c l') → R t l' x ∧ K t l' x
  /-- after a wait the state may be another one -/
  wait : ∀ {a t l c l' x}, J x → R t l x → K t l x → ok a t l x →
    M.code a t l x = some (.wait c l') → R t l' x ∧ ∀ y, J y → R t l' y → K t l' y
  release : ∀ {a t l l' x}, J x → R t l x → K t l x → ok a t l x →
    M.code a t l x = some (.release l') → R t l' x

namespace Knows

variable {M : Monitor σ T L C A} {ok : A → T → L → σ → Prop} {J : σ → Prop}
  {R K : T → L → σ → Prop} {s s' : MonitorState σ T L C} {x₀ : σ} {l₀ : T → L} {t : T} {l : L}

/-- What no step of the code undoes may be added to the invariant. -/
theorem and {P : σ → Prop} (hK : Knows M ok J R K)
    (houtside : ∀ {a t l x r}, J x → R t l x → M.outside a t l x = some r → P x → P r.1)
    (hupdate : ∀ {a t l l' x y}, J x → R t l x → ok a t l x →
      M.code a t l x = some (.update y l') → P x → P y) :
    Knows M ok (fun x => J x ∧ P x) R K where
  outside hx hl hr :=
    have h := hK.outside hx.1 hl hr
    ⟨⟨h.1, houtside hx.1 hl hr hx.2⟩, h.2⟩
  enter hx := hK.enter hx.1
  update hx hl hk hok hc :=
    have h := hK.update hx.1 hl hk hok hc
    ⟨⟨h.1, hupdate hx.1 hl hok hc hx.2⟩, h.2⟩
  wakeup hx := hK.wakeup hx.1
  wait hx hl hk hok hc :=
    have h := hK.wait hx.1 hl hk hok hc
    ⟨h.1, fun y hy => h.2 y hy.1⟩
  release hx := hK.release hx.1

/-- The invariant of a run: `J` of the protected state, `R` of every thread, and `K` of a thread that
    has the lock, or will have it when it comes back from a wait. -/
structure Inv (J : σ → Prop) (R K : T → L → σ → Prop) (s : MonitorState σ T L C) : Prop where
  always : J s.shared
  own : ∀ t, R t (s.place t).loc s.shared
  current : ∀ t l, (s.place t).current = some l → K t l s.shared
  later : ∀ t l, (s.place t).later = some l → ∀ y, J y → R t l y → K t l y

theorem Inv.own_of_loc (h : Inv J R K s) (hl : (s.place t).loc = l) : R t l s.shared :=
  hl ▸ h.own t

section
variable [DecidableEq T]

/-- A step of `t` to the place `p`, in which the state becomes `x`. -/
theorem Inv.place {x : σ} {p : MonitorPlace T L C} (h : Inv J R K s) (hx : J x)
    (hown : R t p.loc x) (hstable : ∀ u l, u ≠ t → R u l s.shared → R u l x)
    (hothers : ∀ u l, u ≠ t → (s.place u).current = some l → K u l x)
    (hcurrent : ∀ l, p.current = some l → K t l x)
    (hlater : ∀ l, p.later = some l → ∀ y, J y → R t l y → K t l y)
    (lock : Option T) (chan : T → Option C) :
    Inv J R K ⟨x, lock, chan, Function.update s.place t p⟩ := by
  refine ⟨hx, ?_, ?_, ?_⟩
  · intro u
    by_cases hut : u = t
    · rw [hut]
      simpa using hown
    · simpa [hut] using hstable u _ hut (h.own u)
  · intro u l hu
    by_cases hut : u = t
    · rw [hut] at hu ⊢
      simp only [Function.update_self] at hu
      exact hcurrent l hu
    · simp only [Function.update_of_ne hut] at hu
      exact hothers u l hut hu
  · intro u l hu
    by_cases hut : u = t
    · rw [hut] at hu ⊢
      simp only [Function.update_self] at hu
      exact hlater l hu
    · simp only [Function.update_of_ne hut] at hu
      exact h.later u l hu

/-- A step that leaves the state as it is. -/
theorem Inv.goto {p : MonitorPlace T L C} (h : Inv J R K s) (hown : R t p.loc s.shared)
    (hcurrent : ∀ l, p.current = some l → K t l s.shared)
    (hlater : ∀ l, p.later = some l → ∀ y, J y → R t l y → K t l y)
    (lock : Option T) (chan : T → Option C) :
    Inv J R K ⟨s.shared, lock, chan, Function.update s.place t p⟩ :=
  h.place h.always hown (fun _ _ _ => id) (fun u l _ => h.current u l) hcurrent hlater lock chan

/-- A step of a thread that waits, after which it still goes on at `l`. -/
theorem Inv.wait_on {p : MonitorPlace T L C} (h : Inv J R K s) (hl : (s.place t).later = some l)
    (hp : p.later = some l) (lock : Option T) (chan : T → Option C) :
    Inv J R K ⟨s.shared, lock, chan, Function.update s.place t p⟩ := by
  obtain ⟨hloc, hcurrent⟩ := MonitorPlace.loc_of_later hp
  refine h.goto ?_ ?_ ?_ lock chan
  · rw [hloc, ← (MonitorPlace.loc_of_later hl).1]
    exact h.own t
  · intro l' hl'
    rw [hcurrent] at hl'
    cases hl'
  · intro l' hl'
    rw [hp] at hl'
    cases hl'
    exact h.later t l hl

theorem Inv.wakeOne [DecidableEq C] (h : Inv J R K s) (c : C) (u : T) :
    Inv J R K (Monitor.wakeOne c u s) := by
  rw [Monitor.wakeOne]
  split
  case isTrue =>
    split
    case h_1 c' l hu =>
      refine h.wait_on (p := .awake l) ?_ rfl s.lock _
      rw [hu]
      rfl
    case h_2 => exact ⟨h.always, h.own, h.current, h.later⟩
  case isFalse => exact h

end

variable [DecidableEq T] (hK : Knows M ok J R K)
include hK

theorem inv_exec {a : A} {cmd : MonitorCmd σ L C} (h : Inv J R K s)
    (hlock : ∀ u, (s.place u).Holds → u = t) (hp : s.place t = .inside l)
    (hok : ok a t l s.shared) (hc : M.code a t l s.shared = some cmd) :
    Inv J R K (M.exec t cmd s) := by
  have hown : R t l s.shared := h.own_of_loc (hp ▸ rfl)
  have hk : K t l s.shared := by
    refine h.current t l ?_
    rw [hp]
    rfl
  cases cmd with
  | update y l' =>
    obtain ⟨hy, hown', hk', hstable⟩ := hK.update h.always hown hk hok hc
    refine h.place hy hown' hstable ?_ ?_ (fun _ h => by cases h) s.lock s.chan
    · intro u lu hut hu
      exact absurd (hlock u (MonitorPlace.holds_of_current hu)) hut
    · intro l'' hl''
      cases hl''
      exact hk'
  | wakeup c l' =>
    obtain ⟨hown', hk'⟩ := hK.wakeup h.always hown hk hok hc
    refine h.goto hown' ?_ (fun _ h => by cases h) s.lock s.chan
    intro l'' hl''
    cases hl''
    exact hk'
  | wait c l' =>
    obtain ⟨hown', hk'⟩ := hK.wait h.always hown hk hok hc
    refine h.goto hown' (fun _ h => by cases h) ?_ s.lock _
    intro l'' hl''
    cases hl''
    exact hk'
  | release l' =>
    have hown' : R t l' s.shared := hK.release h.always hown hk hok hc
    exact h.goto hown' (fun _ h => by cases h) (fun _ h => by cases h) none s.chan

variable [DecidableEq C]

theorem inv_step {act : MonitorAct T A} (h : Inv J R K s)
    (hlock : ∀ t u, (s.place t).Holds → (s.place u).Holds → u = t) (hok : Monitor.Ok ok s act)
    (hs : M.step s act = some s') : Inv J R K s' := by
  cases Monitor.takes_of_step hs with
  | @outside t a l r hp hr =>
    obtain ⟨hj, hown, hstable, hk⟩ := hK.outside h.always (h.own_of_loc (hp ▸ rfl)) hr
    refine h.place hj hown hstable ?_ (fun _ h => by cases h) (fun _ h => by cases h) s.lock s.chan
    intro u l hut hu
    refine hk u l hut ?_ (h.current u l hu)
    have hl : (s.place u).loc = l := by
      cases hpu : s.place u with
      | inside | waking =>
        rw [hpu] at hu
        exact Option.some.inj hu
      | _ =>
        rw [hpu] at hu
        cases hu
    exact h.own_of_loc hl
  | @enter t a l l' hp hn hl' =>
    obtain ⟨hown, hk⟩ := hK.enter h.always (h.own_of_loc (hp ▸ rfl)) hl'
    refine h.goto hown ?_ (fun _ h => by cases h) (some t) s.chan
    intro l'' hl''
    cases hl''
    exact hk
  | @code t a l cmd hp hc =>
    refine hK.inv_exec h ?_ hp (hok l hp) hc
    intro u hu
    refine hlock t u ?_ hu
    rw [hp]
    trivial
  | @wake t c u todo l hp =>
    have h' := h.wakeOne c u
    refine h'.goto ?_ ?_ (fun _ h => by cases h) _ _
    · rw [Discipline.wakeOne_shared]
      exact h.own_of_loc (hp ▸ rfl)
    · intro l' hl'
      cases hl'
      rw [Discipline.wakeOne_shared]
      refine h.current t l ?_
      rw [hp]
      rfl
  | @woken t c l hp =>
    have hown : R t l s.shared := h.own_of_loc (hp ▸ rfl)
    refine h.goto hown ?_ (fun _ h => by cases h) s.lock s.chan
    intro l' hl'
    cases hl'
    refine h.current t l ?_
    rw [hp]
    rfl
  | @release t c l hp => exact h.wait_on (hp ▸ rfl) rfl none s.chan
  | @sleep t c l hp _ => exact h.wait_on (hp ▸ rfl) rfl s.lock s.chan
  | @stay t c l hp _ => exact h.wait_on (hp ▸ rfl) rfl s.lock s.chan
  | @reacquire t l hp hn =>
    have hown : R t l s.shared := h.own_of_loc (hp ▸ rfl)
    refine h.goto hown ?_ (fun _ h => by cases h) (some t) s.chan
    intro l' hl'
    cases hl'
    refine h.later t l ?_ s.shared h.always hown
    rw [hp]
    rfl
  | @kill t c l hp => exact h.wait_on (hp ▸ rfl) rfl s.lock s.chan

/-- The invariant holds from any state of a run on in which it holds. -/
theorem inv_trans (hr : Reach M.step (Monitor.Ok ok) (Monitor.init x₀ l₀) s) (h : Inv J R K s)
    (h' : Reach M.step (Monitor.Ok ok) s s') : Inv J R K s' := by
  induction h' with
  | start => exact h
  | next hr' hok hs ih =>
    refine hK.inv_step ih ?_ hok hs
    intro t u ht hu
    exact Monitor.eq_of_holds (hr.trans hr') hu ht

section
variable (h₀ : J x₀) (hl₀ : ∀ t, R t (l₀ t) x₀)
include h₀ hl₀

theorem inv (h : Reach M.step (Monitor.Ok ok) (Monitor.init x₀ l₀) s) : Inv J R K s :=
  hK.inv_trans .start ⟨h₀, hl₀, fun _ _ h => (by cases h), fun _ _ h => (by cases h)⟩ h

/-- **The invariant of the protected state.** -/
theorem always (h : Reach M.step (Monitor.Ok ok) (Monitor.init x₀ l₀) s) : J s.shared :=
  (hK.inv h₀ hl₀ h).always

/-- **What is known inside.** -/
theorem inside (h : Reach M.step (Monitor.Ok ok) (Monitor.init x₀ l₀) s)
    (hp : s.place t = .inside l) : K t l s.shared := by
  refine (hK.inv h₀ hl₀ h).current t l ?_
  rw [hp]
  rfl

end

end Knows

end Lib
