/-
  Monitors: a lock, a state it protects, and channels to sleep on.

  A thread that has to wait registers on a channel while it holds the lock,
  releases the lock and then goes to sleep, unless it has been woken up in the
  meantime; `wakeup` goes through all threads, one at a time, and takes those
  registered on the channel off it.  Other threads run between any two of these
  steps.

  A `Discipline` says what has to be shown of the code between two accesses to
  the lock: a thread waits only while it is blocked, and who unblocks others
  owes their channel a wakeup until it has paid it, which it does before it
  releases the lock.

  * `Discipline.waits`: then whoever is registered is blocked, or will be woken
    up by the thread that holds the lock;
  * `Discipline.Inv.blocked_of_asleep`: so while the lock is free nobody sleeps
    who could go on.
-/
import CShell.Lib.Steps
import Mathlib.Logic.Function.Basic

namespace Lib

/-- What a thread does next while it holds the lock. -/
inductive MonitorCmd (σ L C : Type) where
  /-- change the state, and go on at `l` -/
  | update (s : σ) (l : L)
  | wakeup (c : C) (l : L)
  /-- register on `c`, release the lock, sleep, and go on at `l` with the lock -/
  | wait (c : C) (l : L)
  | release (l : L)

/-- The code of the threads; `A` is what it depends on besides the state. -/
structure Monitor (σ T L C A : Type) where
  /-- the threads, in the order in which `wakeup` goes through them -/
  threads : List T
  mem_threads : ∀ t, t ∈ threads
  /-- without the lock: a step of its own -/
  outside : A → T → L → σ → Option (σ × L)
  /-- without the lock: where it goes on once it has got it -/
  enter : A → T → L → Option L
  /-- with the lock -/
  code : A → T → L → σ → Option (MonitorCmd σ L C)

/-- Where a thread is. -/
inductive MonitorPlace (T L C : Type) where
  | outside (l : L)
  | inside (l : L)
  /-- in the loop of `wakeup`, with these threads to go -/
  | waking (c : C) (todo : List T) (l : L)
  /-- registered, with the lock -/
  | prepared (c : C) (l : L)
  /-- registered and without the lock, but not asleep yet -/
  | released (c : C) (l : L)
  | asleep (c : C) (l : L)
  /-- back from sleep, wants the lock -/
  | awake (l : L)
  deriving DecidableEq

namespace MonitorPlace

variable {T L C : Type}

/-- The thread has the lock. -/
def Holds : MonitorPlace T L C → Prop
  | inside _ | waking _ _ _ | prepared _ _ => True
  | _ => False

/-- The thread waits on `c` and will go on at `l`. -/
def Waits (c : C) (l : L) : MonitorPlace T L C → Prop
  | prepared c' l' | released c' l' | asleep c' l' => c' = c ∧ l' = l
  | _ => False

end MonitorPlace

/-- The protected state, the lock, the channels and the places of the threads. -/
structure MonitorState (σ T L C : Type) where
  shared : σ
  lock : Option T
  /-- the channel a thread is registered on -/
  chan : T → Option C
  place : T → MonitorPlace T L C

/-- Who takes a step, and which. -/
inductive MonitorAct (T A : Type) where
  | outside (t : T) (a : A)
  | enter (t : T) (a : A)
  | code (t : T) (a : A)
  /-- a round of the loop of `wakeup` -/
  | wake (t : T)
  /-- release the lock before going to sleep -/
  | release (t : T)
  | sleep (t : T)
  /-- take the lock after sleep -/
  | reacquire (t : T)
  /-- a sleeper is made to run although nobody has woken its channel -/
  | kill (t : T)

namespace Monitor

variable {σ T L C A : Type} [DecidableEq T] [DecidableEq C]

/-- The state in which nobody is inside. -/
def init (shared : σ) (l : T → L) : MonitorState σ T L C :=
  ⟨shared, none, fun _ => none, fun t => .outside (l t)⟩

/-- A round of the loop of `wakeup` for the thread `u`. -/
def wakeOne (c : C) (u : T) (s : MonitorState σ T L C) : MonitorState σ T L C :=
  if s.chan u = some c then
    { s with
      chan := Function.update s.chan u none
      place := match s.place u with
        | .asleep _ l => Function.update s.place u (.awake l)
        | _ => s.place }
  else s

variable (M : Monitor σ T L C A)

/-- What a command of the code does to the state. -/
def exec (t : T) (cmd : MonitorCmd σ L C) (s : MonitorState σ T L C) : MonitorState σ T L C :=
  match cmd with
  | .update x l => { s with shared := x, place := Function.update s.place t (.inside l) }
  | .wakeup c l => { s with place := Function.update s.place t (.waking c M.threads l) }
  | .wait c l =>
    { s with
      chan := Function.update s.chan t (some c)
      place := Function.update s.place t (.prepared c l) }
  | .release l => { s with lock := none, place := Function.update s.place t (.outside l) }

/-- One step of one thread. -/
def step (s : MonitorState σ T L C) : MonitorAct T A → Option (MonitorState σ T L C)
  | .outside t a =>
    match s.place t with
    | .outside l => (M.outside a t l s.shared).map fun r =>
        { s with shared := r.1, place := Function.update s.place t (.outside r.2) }
    | _ => none
  | .enter t a =>
    match s.place t, s.lock with
    | .outside l, none => (M.enter a t l).map fun l' =>
        { s with lock := some t, place := Function.update s.place t (.inside l') }
    | _, _ => none
  | .code t a =>
    match s.place t with
    | .inside l => (M.code a t l s.shared).map fun cmd => M.exec t cmd s
    | _ => none
  | .wake t =>
    match s.place t with
    | .waking c (u :: todo) l =>
      let s' := wakeOne c u s
      some { s' with place := Function.update s'.place t (.waking c todo l) }
    | .waking _ [] l => some { s with place := Function.update s.place t (.inside l) }
    | _ => none
  | .release t =>
    match s.place t with
    | .prepared c l =>
      some { s with lock := none, place := Function.update s.place t (.released c l) }
    | _ => none
  | .sleep t =>
    match s.place t with
    | .released c l =>
      if s.chan t = none then some { s with place := Function.update s.place t (.awake l) }
      else some { s with place := Function.update s.place t (.asleep c l) }
    | _ => none
  | .reacquire t =>
    match s.place t, s.lock with
    | .awake l, none =>
      some { s with lock := some t, place := Function.update s.place t (.inside l) }
    | _, _ => none
  | .kill t =>
    match s.place t with
    | .asleep _ l => some { s with place := Function.update s.place t (.awake l) }
    | _ => none

/-- The ways a step can go. -/
inductive Takes (s : MonitorState σ T L C) : MonitorAct T A → MonitorState σ T L C → Prop where
  | outside {t a l r} : s.place t = .outside l → M.outside a t l s.shared = some r →
      Takes s (.outside t a)
        { s with shared := r.1, place := Function.update s.place t (.outside r.2) }
  | enter {t a l l'} : s.place t = .outside l → s.lock = none → M.enter a t l = some l' →
      Takes s (.enter t a)
        { s with lock := some t, place := Function.update s.place t (.inside l') }
  | code {t a l cmd} : s.place t = .inside l → M.code a t l s.shared = some cmd →
      Takes s (.code t a) (M.exec t cmd s)
  | wake {t c u todo l} : s.place t = .waking c (u :: todo) l →
      Takes s (.wake t)
        { wakeOne c u s with
          place := Function.update (wakeOne c u s).place t (.waking c todo l) }
  | woken {t c l} : s.place t = .waking c [] l →
      Takes s (.wake t) { s with place := Function.update s.place t (.inside l) }
  | release {t c l} : s.place t = .prepared c l →
      Takes s (.release t)
        { s with lock := none, place := Function.update s.place t (.released c l) }
  | sleep {t c l} : s.place t = .released c l → s.chan t ≠ none →
      Takes s (.sleep t) { s with place := Function.update s.place t (.asleep c l) }
  | stay {t c l} : s.place t = .released c l → s.chan t = none →
      Takes s (.sleep t) { s with place := Function.update s.place t (.awake l) }
  | reacquire {t l} : s.place t = .awake l → s.lock = none →
      Takes s (.reacquire t)
        { s with lock := some t, place := Function.update s.place t (.inside l) }
  | kill {t c l} : s.place t = .asleep c l →
      Takes s (.kill t) { s with place := Function.update s.place t (.awake l) }

variable {M}

theorem takes_of_step {s s' : MonitorState σ T L C} {act : MonitorAct T A}
    (hs : M.step s act = some s') : M.Takes s act s' := by
  cases act with
  | outside t a =>
    simp only [step] at hs
    split at hs
    case h_1 l hp =>
      obtain ⟨r, hr, rfl⟩ := Option.map_eq_some_iff.1 hs
      exact .outside hp hr
    case h_2 => cases hs
  | enter t a =>
    simp only [step] at hs
    split at hs
    case h_1 l hp hn =>
      obtain ⟨l', hl', rfl⟩ := Option.map_eq_some_iff.1 hs
      exact .enter hp hn hl'
    case h_2 => cases hs
  | code t a =>
    simp only [step] at hs
    split at hs
    case h_1 l hp =>
      obtain ⟨cmd, hc, rfl⟩ := Option.map_eq_some_iff.1 hs
      exact .code hp hc
    case h_2 => cases hs
  | wake t =>
    simp only [step] at hs
    split at hs
    case h_1 c u todo l hp =>
      cases hs
      exact .wake hp
    case h_2 c l hp =>
      cases hs
      exact .woken hp
    case h_3 => cases hs
  | release t =>
    simp only [step] at hs
    split at hs
    case h_1 c l hp =>
      cases hs
      exact .release hp
    case h_2 => cases hs
  | sleep t =>
    simp only [step] at hs
    split at hs
    case h_1 c l hp =>
      split at hs
      case isTrue hc =>
        cases hs
        exact .stay hp hc
      case isFalse hc =>
        cases hs
        exact .sleep hp hc
    case h_2 => cases hs
  | reacquire t =>
    simp only [step] at hs
    split at hs
    case h_1 l hp hn =>
      cases hs
      exact .reacquire hp hn
    case h_2 => cases hs
  | kill t =>
    simp only [step] at hs
    split at hs
    case h_1 c l hp =>
      cases hs
      exact .kill hp
    case h_2 => cases hs

/-- The steps in which the code depends on what is `ok`. -/
def Ok (ok : A → T → L → σ → Prop) (s : MonitorState σ T L C) : MonitorAct T A → Prop
  | .code t a => ∀ l, s.place t = .inside l → ok a t l s.shared
  | _ => True

instance decidableOk {ok : A → T → L → σ → Prop} [∀ a t l x, Decidable (ok a t l x)]
    (s : MonitorState σ T L C) : (act : MonitorAct T A) → Decidable (Ok ok s act)
  | .code t a =>
    match hp : s.place t with
    | .inside l => decidable_of_iff (ok a t l s.shared) (by simp [Ok, hp])
    | .outside _ | .waking _ _ _ | .prepared _ _ | .released _ _ | .asleep _ _ | .awake _ =>
      isTrue (by simp [Ok, hp])
  | .outside _ _ | .enter _ _ | .wake _ | .release _ | .sleep _ | .reacquire _ | .kill _ =>
    isTrue trivial

end Monitor

/-! ## Who owes whom a wakeup -/

variable {σ T L C A : Type}

/-- What has to be shown of the code.  `I` holds in every state, and `ok` of what
    the code depends on. -/
structure Discipline (M : Monitor σ T L C A) (I : MonitorState σ T L C → Prop)
    (ok : A → T → L → σ → Prop) where
  /-- a thread that waits on the channel cannot go on -/
  blocked : σ → T → L → C → Prop
  /-- the thread that has the lock has to wake the channel -/
  owes : σ → T → L → C → Prop
  outside : ∀ {s : MonitorState σ T L C} {a : A} {t : T} {l : L} {r : σ × L}, I s →
    s.place t = .outside l → M.outside a t l s.shared = some r →
      (∀ u l c, blocked s.shared u l c → blocked r.1 u l c) ∧
        ∀ u l c, owes s.shared u l c → owes r.1 u l c
  update : ∀ {s : MonitorState σ T L C} {a : A} {t : T} {l : L} {x : σ} {l' : L}, I s →
    s.place t = .inside l → ok a t l s.shared → M.code a t l s.shared = some (.update x l') →
      (∀ u lu c, (s.place u).Waits c lu → s.chan u = some c → blocked s.shared u lu c →
        blocked x u lu c ∨ owes x t l' c) ∧
        ∀ c, owes s.shared t l c → owes x t l' c
  wakeup : ∀ {s : MonitorState σ T L C} {a : A} {t : T} {l : L} {c : C} {l' : L}, I s →
    s.place t = .inside l → ok a t l s.shared → M.code a t l s.shared = some (.wakeup c l') →
      ∀ c', c' ≠ c → owes s.shared t l c' → owes s.shared t l' c'
  wait : ∀ {s : MonitorState σ T L C} {a : A} {t : T} {l : L} {c : C} {l' : L}, I s →
    s.place t = .inside l → ok a t l s.shared → M.code a t l s.shared = some (.wait c l') →
      blocked s.shared t l' c ∧ ∀ c', ¬owes s.shared t l c'
  release : ∀ {s : MonitorState σ T L C} {a : A} {t : T} {l : L} {l' : L}, I s →
    s.place t = .inside l → ok a t l s.shared → M.code a t l s.shared = some (.release l') →
      ∀ c', ¬owes s.shared t l c'

namespace Discipline

variable {M : Monitor σ T L C A} {I : MonitorState σ T L C → Prop} {ok : A → T → L → σ → Prop}
  (D : Discipline M I ok)

/-- `t`, which has the lock, will take `u` off the channel `c`. -/
def Owed (s : MonitorState σ T L C) (t u : T) (c : C) : Prop :=
  match s.place t with
  | .inside l => D.owes s.shared t l c
  | .waking c' todo l => (c' = c ∧ u ∈ todo) ∨ D.owes s.shared t l c
  | _ => False

/-- **The invariant of a discipline**: the lock belongs to who is inside, and a thread that waits on a
    channel is blocked, or another one owes it a wakeup. -/
structure Inv (s : MonitorState σ T L C) : Prop where
  lock : ∀ t, (s.place t).Holds ↔ s.lock = some t
  /-- a thread that waits is on its channel, or has been taken off it already -/
  chan : ∀ t c l, (s.place t).Waits c l → s.chan t = some c ∨ s.chan t = none
  asleep : ∀ t c l, s.place t = .asleep c l → s.chan t ≠ none
  waits : ∀ u c l, (s.place u).Waits c l → s.chan u = some c →
    D.blocked s.shared u l c ∨ ∃ t, D.Owed s t u c

theorem inv_init (x : σ) (l : T → L) : D.Inv (Monitor.init x l) := by
  refine ⟨?_, ?_, ?_, ?_⟩
  · intro t
    exact iff_of_false id nofun
  · intro t c l h
    cases h
  · intro t c l h
    cases h
  · intro u c l h
    cases h

variable {D} {s s' : MonitorState σ T L C} {t u : T} {c : C} {l l' : L} {a : A}

theorem Inv.not_lock (h : D.Inv s) (hp : ¬(s.place t).Holds) : s.lock ≠ some t :=
  fun hl => hp ((h.lock t).2 hl)

theorem Inv.lock_of_owed (h : D.Inv s) (ho : D.Owed s t u c) : s.lock = some t := by
  rw [← h.lock]
  rw [Owed] at ho
  split at ho
  · rename_i hp
    rw [hp]
    trivial
  · rename_i hp
    rw [hp]
    trivial
  · cases ho

theorem Owed.congr (hp : s'.place t = s.place t)
    (howes : ∀ l, D.owes s.shared t l c → D.owes s'.shared t l c) (h : D.Owed s t u c) :
    D.Owed s' t u c := by
  rw [Owed] at h ⊢
  rw [hp]
  split at h
  · exact howes _ h
  · exact h.imp_right (howes _)
  · exact h

/-- While the lock is free nobody sleeps who could go on. -/
theorem Inv.blocked_of_asleep (h : D.Inv s) (hn : s.lock = none) (hp : s.place t = .asleep c l) :
    D.blocked s.shared t l c := by
  have hw : (s.place t).Waits c l := by
    rw [hp]
    exact ⟨rfl, rfl⟩
  have hc : s.chan t = some c := (h.chan t c l hw).resolve_right (h.asleep t c l hp)
  refine (h.waits t c l hw hc).resolve_right ?_
  rintro ⟨t', ho⟩
  have hl := h.lock_of_owed ho
  rw [hn] at hl
  cases hl

/-- `s'` is a state after a step of `t`, which leaves the others where they are. -/
structure Moves (s s' : MonitorState σ T L C) (t : T) : Prop where
  place : ∀ u, u ≠ t → s'.place u = s.place u
  chan : ∀ u, u ≠ t → s'.chan u = s.chan u
  lock : ∀ u, u ≠ t → (s'.lock = some u ↔ s.lock = some u)

/-- The invariant after a step of `t`: what is to be shown of `t` itself, and that
    the others are still blocked or owed a wakeup. -/
theorem Inv.of_moves (h : D.Inv s) (hm : Moves s s' t)
    (hlock : (s'.place t).Holds ↔ s'.lock = some t)
    (hchan : ∀ c l, (s'.place t).Waits c l → s'.chan t = some c ∨ s'.chan t = none)
    (hasleep : ∀ c l, s'.place t = .asleep c l → s'.chan t ≠ none)
    (hself : ∀ c l, (s'.place t).Waits c l → s'.chan t = some c →
      D.blocked s'.shared t l c ∨ ∃ t', D.Owed s' t' t c)
    (hblocked : ∀ u c l, u ≠ t → (s.place u).Waits c l → s.chan u = some c →
      D.blocked s.shared u l c → D.blocked s'.shared u l c ∨ ∃ t, D.Owed s' t u c)
    (howed : ∀ t' u c, u ≠ t → D.Owed s t' u c → ∃ t, D.Owed s' t u c) : D.Inv s' := by
  refine ⟨?_, ?_, ?_, ?_⟩
  · intro u
    by_cases hut : u = t
    · rw [hut]
      exact hlock
    · rw [hm.place u hut, h.lock, hm.lock u hut]
  · intro u c l hu
    by_cases hut : u = t
    · rw [hut] at hu ⊢
      exact hchan c l hu
    · rw [hm.place u hut] at hu
      rw [hm.chan u hut]
      exact h.chan u c l hu
  · intro u c l hu
    by_cases hut : u = t
    · rw [hut] at hu ⊢
      exact hasleep c l hu
    · rw [hm.place u hut] at hu
      rw [hm.chan u hut]
      exact h.asleep u c l hu
  · intro u c l hu hc
    by_cases hut : u = t
    · rw [hut] at hu hc ⊢
      exact hself c l hu hc
    · rw [hm.place u hut] at hu
      rw [hm.chan u hut] at hc
      rcases h.waits u c l hu hc with hb | ⟨t', ho⟩
      · exact hblocked u c l hut hu hc hb
      · exact .inr (howed t' u c hut ho)

/-- A step of a thread that has not the lock leaves it to its holder to pay. -/
theorem Inv.owed_of_not_lock (h : D.Inv s) (hm : Moves s s' t) (ht : s.lock ≠ some t)
    (howes : ∀ u l c, D.owes s.shared u l c → D.owes s'.shared u l c) {t' : T}
    (ho : D.Owed s t' u c) : ∃ t, D.Owed s' t u c := by
  have hne : t' ≠ t := by
    rintro rfl
    exact ht (h.lock_of_owed ho)
  exact ⟨t', ho.congr (hm.place t' hne) fun l => howes t' l c⟩

variable [DecidableEq T]

theorem moves_of_place (x : σ) (p : MonitorPlace T L C) :
    Moves s { s with shared := x, place := Function.update s.place t p } t :=
  ⟨fun _ hu => Function.update_of_ne hu _ _, fun _ _ => rfl, fun _ _ => Iff.rfl⟩

/-- A step that takes or releases the lock. -/
theorem moves_of_lock {lock : Option T} (p : MonitorPlace T L C)
    (hs : s.lock = none ∨ s.lock = some t) (hs' : lock = none ∨ lock = some t) :
    Moves s { s with lock := lock, place := Function.update s.place t p } t := by
  refine ⟨fun _ hu => Function.update_of_ne hu _ _, fun _ _ => rfl, ?_⟩
  intro u hu
  refine iff_of_false ?_ ?_
  · intro h
    rcases hs' with hs' | hs' <;> rw [hs'] at h
    · cases h
    · exact hu (Option.some.inj h).symm
  · intro h
    rcases hs with hs | hs <;> rw [hs] at h
    · cases h
    · exact hu (Option.some.inj h).symm

theorem Inv.outside (h : D.Inv s) (hI : I s) {r : σ × L} (hp : s.place t = .outside l)
    (hr : M.outside a t l s.shared = some r) :
    D.Inv { s with shared := r.1, place := Function.update s.place t (.outside r.2) } := by
  obtain ⟨hblocked, howes⟩ := D.outside hI hp hr
  have hlock : s.lock ≠ some t := by
    rw [ne_eq, ← h.lock, hp]
    exact id
  have hm := moves_of_place (s := s) (t := t) r.1 (.outside r.2)
  refine h.of_moves hm ?_ ?_ ?_ ?_ ?_ ?_
  · simp [MonitorPlace.Holds, hlock]
  · simp [MonitorPlace.Waits]
  · simp
  · simp [MonitorPlace.Waits]
  · intro u c l _ _ _ hb
    exact .inl (hblocked u l c hb)
  · intro t' u c _ ho
    exact h.owed_of_not_lock hm hlock howes ho

theorem Inv.enter (h : D.Inv s) (hn : s.lock = none) :
    D.Inv { s with lock := some t, place := Function.update s.place t (.inside l') } := by
  have hm := moves_of_lock (s := s) (t := t) (.inside l') (.inl hn) (.inr rfl)
  refine h.of_moves hm ?_ ?_ ?_ ?_ ?_ ?_
  · simp [MonitorPlace.Holds]
  · simp [MonitorPlace.Waits]
  · simp
  · simp [MonitorPlace.Waits]
  · intro u c l _ _ _ hb
    exact .inl hb
  · intro t' u c _ ho
    exact h.owed_of_not_lock hm (by simp [hn]) (fun _ _ _ => id) ho

theorem Inv.update (h : D.Inv s) (hI : I s) {x : σ} (hp : s.place t = .inside l)
    (hok : ok a t l s.shared) (hr : M.code a t l s.shared = some (.update x l')) :
    D.Inv (M.exec t (.update x l') s) := by
  obtain ⟨hblocked, howes⟩ := D.update hI hp hok hr
  have hlock : s.lock = some t := by
    rw [← h.lock, hp]
    trivial
  have howed {u c} (ho : D.owes x t l' c) : ∃ t', D.Owed (M.exec t (.update x l') s) t' u c := by
    refine ⟨t, ?_⟩
    simpa [Owed, Monitor.exec] using ho
  refine h.of_moves (moves_of_place x (.inside l')) ?_ ?_ ?_ ?_ ?_ ?_
  · simpa [MonitorPlace.Holds, Monitor.exec] using hlock
  · simp [MonitorPlace.Waits, Monitor.exec]
  · simp [Monitor.exec]
  · simp [MonitorPlace.Waits, Monitor.exec]
  · intro u c lu _ hu hc hb
    exact (hblocked u lu c hu hc hb).imp_right howed
  · intro t' u c _ ho
    obtain rfl : t = t' := Option.some.inj (hlock.symm.trans (h.lock_of_owed ho))
    rw [Owed, hp] at ho
    exact howed (howes c ho)

theorem Inv.wakeup (h : D.Inv s) (hI : I s) (hp : s.place t = .inside l)
    (hok : ok a t l s.shared) (hr : M.code a t l s.shared = some (.wakeup c l')) :
    D.Inv (M.exec t (.wakeup c l') s) := by
  have hlock : s.lock = some t := by
    rw [← h.lock, hp]
    trivial
  refine h.of_moves (moves_of_place s.shared (.waking c M.threads l')) ?_ ?_ ?_ ?_ ?_ ?_
  · simpa [MonitorPlace.Holds, Monitor.exec] using hlock
  · simp [MonitorPlace.Waits, Monitor.exec]
  · simp [Monitor.exec]
  · simp [MonitorPlace.Waits, Monitor.exec]
  · intro u c lu _ _ _ hb
    exact .inl hb
  · intro t' u c' _ ho
    obtain rfl : t = t' := Option.some.inj (hlock.symm.trans (h.lock_of_owed ho))
    rw [Owed, hp] at ho
    refine ⟨t, ?_⟩
    simp only [Owed, Monitor.exec, Function.update_self]
    by_cases hc : c' = c
    · exact .inl ⟨hc.symm, M.mem_threads u⟩
    · exact .inr (D.wakeup hI hp hok hr c' hc ho)

theorem Inv.wait (h : D.Inv s) (hI : I s) (hp : s.place t = .inside l)
    (hok : ok a t l s.shared) (hr : M.code a t l s.shared = some (.wait c l')) :
    D.Inv (M.exec t (.wait c l') s) := by
  obtain ⟨hblocked, howes⟩ := D.wait hI hp hok hr
  have hlock : s.lock = some t := by
    rw [← h.lock, hp]
    trivial
  have hm : Moves s (M.exec t (.wait c l') s) t :=
    ⟨fun _ hu => Function.update_of_ne hu _ _, fun _ hu => Function.update_of_ne hu _ _,
      fun _ _ => Iff.rfl⟩
  refine h.of_moves hm ?_ ?_ ?_ ?_ ?_ ?_
  · simpa [MonitorPlace.Holds, Monitor.exec] using hlock
  · intro c' lu hw
    simp only [Monitor.exec, Function.update_self] at hw ⊢
    exact .inl (congrArg some hw.1)
  · simp [Monitor.exec]
  · rintro c' lu hw -
    simp only [Monitor.exec, Function.update_self] at hw
    obtain ⟨rfl, rfl⟩ := hw
    exact .inl hblocked
  · intro u c lu _ _ _ hb
    exact .inl hb
  · intro t' u c' _ ho
    obtain rfl : t = t' := Option.some.inj (hlock.symm.trans (h.lock_of_owed ho))
    rw [Owed, hp] at ho
    exact absurd ho (howes c')

/-- The lock is released, by `release` or on the way to sleep, by a thread that
    owes nobody anything. -/
theorem Inv.unlock (h : D.Inv s) {p : MonitorPlace T L C} (hlock : s.lock = some t)
    (howed : ∀ u c, ¬D.Owed s t u c) (hp : ¬p.Holds) (hasleep : ∀ c l, p ≠ .asleep c l)
    (hself : ∀ c l, p.Waits c l → (s.place t).Waits c l) :
    D.Inv { s with lock := none, place := Function.update s.place t p } := by
  have hwaits : ∀ u c l, (Function.update s.place t p u).Waits c l → (s.place u).Waits c l := by
    intro u c l hu
    by_cases hut : u = t
    · rw [hut] at hu ⊢
      rw [Function.update_self] at hu
      exact hself c l hu
    · rwa [Function.update_of_ne hut] at hu
  refine ⟨?_, ?_, ?_, ?_⟩
  · intro u
    refine iff_of_false ?_ nofun
    by_cases hut : u = t
    · rw [hut]
      simpa using hp
    · have hu : ¬(s.place u).Holds := by
        rw [h.lock, hlock]
        exact fun h => hut (Option.some.inj h).symm
      simpa [hut] using hu
  · intro u c lu hu
    exact h.chan u c lu (hwaits u c lu hu)
  · intro u c lu hu
    by_cases hut : u = t
    · rw [hut] at hu
      simp [hasleep] at hu
    · simp only [Function.update_of_ne hut] at hu
      exact h.asleep u c lu hu
  · intro u c lu hu hc
    refine .inl ((h.waits u c lu (hwaits u c lu hu) hc).resolve_right ?_)
    rintro ⟨t', ho⟩
    obtain rfl : t = t' := Option.some.inj (hlock.symm.trans (h.lock_of_owed ho))
    exact howed u c ho

/-- A thread without the lock goes to sleep, finds that it need not, or is made to
    run. -/
theorem Inv.sleep (h : D.Inv s) {p : MonitorPlace T L C} (hlock : s.lock ≠ some t)
    (hp : ¬p.Holds) (hasleep : ∀ c l, p = .asleep c l → s.chan t ≠ none)
    (hself : ∀ c l, p.Waits c l → (s.place t).Waits c l) :
    D.Inv { s with place := Function.update s.place t p } := by
  have hm := moves_of_place (s := s) (t := t) s.shared p
  have howed {t' u c} (ho : D.Owed s t' u c) :
      ∃ t'', D.Owed { s with place := Function.update s.place t p } t'' u c :=
    h.owed_of_not_lock hm hlock (fun _ _ _ => id) ho
  refine h.of_moves hm ?_ ?_ ?_ ?_ ?_ ?_
  · simpa [hlock] using hp
  · intro c l hw
    simp only [Function.update_self] at hw
    exact h.chan t c l (hself c l hw)
  · intro c l ha
    simp only [Function.update_self] at ha
    exact hasleep c l ha
  · intro c l hw hc
    simp only [Function.update_self] at hw
    refine (h.waits t c l (hself c l hw) hc).imp_right ?_
    rintro ⟨t', ho⟩
    exact howed ho
  · intro u c l _ _ _ hb
    exact .inl hb
  · intro t' u c _ ho
    exact howed ho

/-- The loop of `wakeup` is over. -/
theorem Inv.waking_nil (h : D.Inv s) (hp : s.place t = .waking c [] l) :
    D.Inv { s with place := Function.update s.place t (.inside l) } := by
  have hlock : s.lock = some t := by
    rw [← h.lock, hp]
    trivial
  refine h.of_moves (moves_of_place s.shared (.inside l)) ?_ ?_ ?_ ?_ ?_ ?_
  · simpa [MonitorPlace.Holds] using hlock
  · simp [MonitorPlace.Waits]
  · simp
  · simp [MonitorPlace.Waits]
  · intro u c l _ _ _ hb
    exact .inl hb
  · intro t' u c' _ ho
    obtain rfl : t = t' := Option.some.inj (hlock.symm.trans (h.lock_of_owed ho))
    refine ⟨t, ?_⟩
    simpa [Owed, hp] using ho

variable [DecidableEq C]

@[simp]
theorem wakeOne_shared (c : C) (u : T) (s : MonitorState σ T L C) :
    (Monitor.wakeOne c u s).shared = s.shared := by
  rw [Monitor.wakeOne]
  split <;> rfl

@[simp]
theorem wakeOne_lock (c : C) (u : T) (s : MonitorState σ T L C) :
    (Monitor.wakeOne c u s).lock = s.lock := by
  rw [Monitor.wakeOne]
  split <;> rfl

/-- Afterwards nobody's channel is a new one, and `u` is not on `c`. -/
theorem wakeOne_chan {v : T} {c' : C} (h : (Monitor.wakeOne c u s).chan v = some c') :
    s.chan v = some c' ∧ (v = u → c' ≠ c) := by
  rw [Monitor.wakeOne] at h
  split at h
  case isTrue hc =>
    by_cases hv : v = u
    · rw [hv] at h
      simp at h
    · simp only [Function.update_of_ne hv] at h
      exact ⟨h, fun h => absurd h hv⟩
  case isFalse hc =>
    refine ⟨h, ?_⟩
    rintro rfl rfl
    exact hc h

/-- A thread stays where it is, unless it sleeps and is woken. -/
theorem wakeOne_place (v : T) :
    (Monitor.wakeOne c u s).place v = s.place v ∧
        ((∃ c' l, s.place v = .asleep c' l) → (Monitor.wakeOne c u s).chan v = s.chan v) ∨
      ∃ c' l, s.place v = .asleep c' l ∧ (Monitor.wakeOne c u s).place v = .awake l := by
  rw [Monitor.wakeOne]
  split
  case isTrue hc =>
    by_cases hv : v = u
    · subst hv
      split
      case h_1 c' l hu =>
        exact .inr ⟨c', l, hu, by simp⟩
      case h_2 hu =>
        refine .inl ⟨rfl, ?_⟩
        rintro ⟨c', l, ha⟩
        exact absurd ha (hu c' l)
    · refine .inl ⟨?_, fun _ => by simp [hv]⟩
      split
      · simp [hv]
      · rfl
  case isFalse => exact .inl ⟨rfl, fun _ => rfl⟩

theorem wakeOne_holds (v : T) :
    ((Monitor.wakeOne c u s).place v).Holds ↔ (s.place v).Holds := by
  rcases wakeOne_place (c := c) (u := u) (s := s) v with ⟨h, -⟩ | ⟨c', l, hs, h⟩
  · rw [h]
  · rw [h, hs]
    rfl

theorem wakeOne_waits {v : T} {c' : C} (h : ((Monitor.wakeOne c u s).place v).Waits c' l) :
    (s.place v).Waits c' l := by
  rcases wakeOne_place (c := c) (u := u) (s := s) v with ⟨h', -⟩ | ⟨c', l, hs, h'⟩
  · rwa [h'] at h
  · rw [h'] at h
    cases h

/-- A round of the loop of `wakeup`: `u` has been dealt with. -/
theorem Inv.waking_cons (h : D.Inv s) {todo : List T} (hp : s.place t = .waking c (u :: todo) l) :
    D.Inv { Monitor.wakeOne c u s with
      place := Function.update (Monitor.wakeOne c u s).place t (.waking c todo l) } := by
  have hlock : s.lock = some t := by
    rw [← h.lock, hp]
    trivial
  have hwaits : ∀ v c' lv,
      (Function.update (Monitor.wakeOne c u s).place t (.waking c todo l) v).Waits c' lv →
        (s.place v).Waits c' lv := by
    intro v c' lv hv
    by_cases hvt : v = t
    · rw [hvt, Function.update_self] at hv
      cases hv
    · rw [Function.update_of_ne hvt] at hv
      exact wakeOne_waits hv
  refine ⟨?_, ?_, ?_, ?_⟩
  · intro v
    by_cases hvt : v = t
    · rw [hvt]
      simpa [MonitorPlace.Holds] using hlock
    · simpa [hvt, wakeOne_holds] using h.lock v
  · intro v c' lv hv
    cases hc : (Monitor.wakeOne c u s).chan v with
    | none => exact .inr rfl
    | some c'' =>
      refine .inl ?_
      have hc' := (wakeOne_chan hc).1
      rcases h.chan v c' lv (hwaits v c' lv hv) with h' | h'
      · rw [← hc', h']
      · rw [h'] at hc'
        cases hc'
  · intro v c' lv hv
    by_cases hvt : v = t
    · rw [hvt] at hv
      simp at hv
    · simp only [Function.update_of_ne hvt] at hv
      rcases wakeOne_place (c := c) (u := u) (s := s) v with ⟨hv', hc⟩ | ⟨c'', l'', -, hv'⟩
      · rw [hv] at hv'
        rw [hc ⟨c', lv, hv'.symm⟩]
        exact h.asleep v c' lv hv'.symm
      · rw [hv] at hv'
        cases hv'
  · intro v c' lv hv hc
    obtain ⟨hc, hne⟩ := wakeOne_chan hc
    rcases h.waits v c' lv (hwaits v c' lv hv) hc with hb | ⟨t', ho⟩
    · exact .inl (by simpa using hb)
    · obtain rfl : t = t' := Option.some.inj (hlock.symm.trans (h.lock_of_owed ho))
      refine .inr ⟨t, ?_⟩
      rw [Owed, hp] at ho
      simp only [Owed, Function.update_self, wakeOne_shared]
      -- `v` is still to come, for the one dealt with is not on the channel
      refine ho.imp_left ?_
      rintro ⟨hcc, hmem⟩
      refine ⟨hcc, (List.mem_cons.1 hmem).resolve_left ?_⟩
      intro hvu
      exact hne hvu hcc.symm

/-- **Every step keeps the invariant.** -/
theorem Inv.step {act : MonitorAct T A} (h : D.Inv s) (hI : I s) (hok : Monitor.Ok ok s act)
    (hs : M.step s act = some s') : D.Inv s' := by
  cases Monitor.takes_of_step hs with
  | outside hp hr => exact h.outside hI hp hr
  | enter _ hn _ => exact h.enter hn
  | @code t a l cmd hp hc =>
    have hok : ok a t l s.shared := hok l hp
    cases cmd with
    | update x l' => exact h.update hI hp hok hc
    | wakeup c l' => exact h.wakeup hI hp hok hc
    | wait c l' => exact h.wait hI hp hok hc
    | release l' =>
      refine h.unlock ((h.lock t).1 (hp ▸ trivial)) ?_ id nofun nofun
      intro u c ho
      rw [Owed, hp] at ho
      exact D.release hI hp hok hc c ho
  | wake hp => exact h.waking_cons hp
  | woken hp => exact h.waking_nil hp
  | @release t c l hp =>
    refine h.unlock ((h.lock t).1 (hp ▸ trivial)) ?_ id nofun ?_
    · intro u c ho
      rw [Owed, hp] at ho
      exact ho
    · intro c' l' hw
      rw [hp]
      exact hw
  | @sleep t c l hp hc =>
    refine h.sleep (h.not_lock (hp ▸ id)) id (fun _ _ _ => hc) ?_
    intro c' l' hw
    rw [hp]
    exact hw
  | stay hp hc => exact h.sleep (h.not_lock (hp ▸ id)) id nofun nofun
  | reacquire hp hn => exact h.enter hn
  | kill hp => exact h.sleep (h.not_lock (hp ▸ id)) id nofun nofun

variable {x₀ : σ} {l₀ : T → L}

/-- **No wakeup is lost**: whoever is registered on a channel is blocked, or the
    thread that has the lock will wake it. -/
theorem waits (hI : ∀ s, Reach M.step (Monitor.Ok ok) (Monitor.init x₀ l₀) s → I s)
    (h : Reach M.step (Monitor.Ok ok) (Monitor.init x₀ l₀) s) : D.Inv s := by
  induction h with
  | start => exact D.inv_init x₀ l₀
  | next hr hG hs ih => exact ih.step (hI _ hr) hG hs

end Discipline

/-- The discipline that asks for nothing. -/
def Discipline.free (M : Monitor σ T L C A) :
    Discipline M (fun _ => True) fun _ _ _ _ => True where
  blocked _ _ _ _ := True
  owes _ _ _ _ := False
  outside _ _ _ := ⟨fun _ _ _ => id, fun _ _ _ => id⟩
  update _ _ _ _ := ⟨fun _ _ _ _ _ => .inl, fun _ => id⟩
  wakeup _ _ _ _ _ _ := id
  wait _ _ _ _ := ⟨trivial, fun _ => id⟩
  release _ _ _ _ _ := id

namespace Monitor

variable [DecidableEq T] [DecidableEq C] {M : Monitor σ T L C A} {s : MonitorState σ T L C}
  {G : MonitorState σ T L C → MonitorAct T A → Prop} {x₀ : σ} {l₀ : T → L}

/-- **Mutual exclusion**: a thread is inside iff the lock is its own. -/
theorem holds_iff (h : Reach M.step G (init x₀ l₀) s) (t : T) :
    (s.place t).Holds ↔ s.lock = some t := by
  refine (h.invariant (P := (Discipline.free M).Inv) ?_ ?_).lock t
  · exact (Discipline.free M).inv_init x₀ l₀
  · intro s act s' hi _ hs
    refine hi.step trivial ?_ hs
    cases act with
    | code t a => exact fun _ _ => trivial
    | _ => trivial

/-- Without a condition on what the code depends on, every run will do. -/
theorem reach_ok (h : Reach M.step G (init x₀ l₀) s) :
    Reach M.step (Ok fun _ _ _ _ => True) (init x₀ l₀) s := by
  refine h.mono ?_
  intro s act _
  cases act with
  | code t a => exact fun _ _ => trivial
  | _ => trivial

theorem eq_of_holds (h : Reach M.step G (init x₀ l₀) s) {t u : T} (ht : (s.place t).Holds)
    (hu : (s.place u).Holds) : t = u := by
  rw [holds_iff h] at ht hu
  exact Option.some.inj (ht.symm.trans hu)

end Monitor

end Lib
