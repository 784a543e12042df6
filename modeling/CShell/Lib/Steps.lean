/-
  Transition systems given by an executable step function.

  A system is a function `step : S → A → Option S`: the state after an
  action, or `none` where the action is not possible.  `Reach` are the states
  reached by actions that all meet a guard, `Reachable` those reached by any
  actions; `run` executes a list of actions.

  * `Reach.invariant`: what holds at the start and is kept by every step holds
    in every state reached;
  * `Reachable.of_run`, `Reach.of_run`: the states a list of actions leads to
    are reached;
  * `always_iff_guarded`: if a step that breaks the guard breaks the property,
    and one that meets it does not, then a run has the property throughout iff
    all its steps meet the guard.
-/
import Mathlib.Data.Option.Basic

namespace Lib

variable {S A : Type} {step : S → A → Option S} {G : S → A → Prop} {s₀ s s' : S}

/-- The states reached from `s₀` by steps that meet the guard `G`. -/
inductive Reach (step : S → A → Option S) (G : S → A → Prop) (s₀ : S) : S → Prop where
  | start : Reach step G s₀ s₀
  | next {s s' : S} {a : A} :
      Reach step G s₀ s → G s a → step s a = some s' → Reach step G s₀ s'

/-- The states reached from `s₀`. -/
abbrev Reachable (step : S → A → Option S) (s₀ : S) : S → Prop :=
  Reach step (fun _ _ => True) s₀

/-- **The invariant rule.** -/
theorem Reach.invariant {P : S → Prop} (h : Reach step G s₀ s) (start : P s₀)
    (next : ∀ s a s', P s → G s a → step s a = some s' → P s') : P s := by
  induction h with
  | start => exact start
  | next _ hG hs ih => exact next _ _ _ ih hG hs

theorem Reach.mono {G' : S → A → Prop} (h : Reach step G s₀ s) (hG : ∀ s a, G s a → G' s a) :
    Reach step G' s₀ s := by
  induction h with
  | start => exact .start
  | next _ ha hs ih => exact .next ih (hG _ _ ha) hs

theorem Reach.trans {s'' : S} (h : Reach step G s₀ s) (h' : Reach step G s s'') :
    Reach step G s₀ s'' := by
  induction h' with
  | start => exact h
  | next _ hG hs ih => exact .next ih hG hs

/-- The state after the given actions. -/
def run (step : S → A → Option S) : List A → S → Option S
  | [], s => some s
  | a :: as, s => (step s a).bind (run step as)

theorem Reachable.run {as : List A} (h : Reachable step s₀ s) (hr : run step as s = some s') :
    Reachable step s₀ s' := by
  induction as generalizing s with
  | nil => exact Option.some.inj hr ▸ h
  | cons a as ih =>
    obtain ⟨t, ht, hr⟩ := Option.bind_eq_some_iff.1 hr
    exact ih (.next h trivial ht) hr

theorem Reachable.of_run (as : List A) (h : Lib.run step as s₀ = some s) :
    Reachable step s₀ s :=
  Reachable.run .start h

/-- The steps that meet the guard. -/
def guarded (step : S → A → Option S) (G : S → A → Prop) [∀ s a, Decidable (G s a)] (s : S)
    (a : A) : Option S :=
  if G s a then step s a else none

theorem Reach.run [∀ s a, Decidable (G s a)] {as : List A} (h : Reach step G s₀ s)
    (hr : run (guarded step G) as s = some s') : Reach step G s₀ s' := by
  induction as generalizing s with
  | nil => exact Option.some.inj hr ▸ h
  | cons a as ih =>
    obtain ⟨t, ht, hr⟩ := Option.bind_eq_some_iff.1 hr
    obtain ⟨hG, ht⟩ := Option.ite_none_right_eq_some.1 ht
    exact ih (.next h hG ht) hr

theorem Reach.of_run [∀ s a, Decidable (G s a)] (as : List A)
    (h : Lib.run (guarded step G) as s₀ = some s) : Reach step G s₀ s :=
  Reach.run .start h

/-! ## Properties of a run -/

/-- `P` holds in every state of the run. -/
def Always (step : S → A → Option S) (P : S → Prop) : List A → S → Prop
  | [], s => P s
  | a :: as, s => P s ∧ ∀ s', step s a = some s' → Always step P as s'

/-- Every step of the run meets the guard. -/
def Guarded (step : S → A → Option S) (G : S → A → Prop) : List A → S → Prop
  | [], _ => True
  | a :: as, s => G s a ∧ ∀ s', step s a = some s' → Guarded step G as s'

instance decidableGuarded [∀ s a, Decidable (G s a)] :
    (as : List A) → (s : S) → Decidable (Guarded step G as s)
  | [], _ => isTrue trivial
  | a :: as, s =>
    match hs : step s a with
    | some s' =>
      haveI := decidableGuarded as s'
      decidable_of_iff (G s a ∧ Guarded step G as s')
        (and_congr_right fun _ => by simp [hs])
    | none => decidable_of_iff (G s a) (by simp [Guarded, hs])

theorem guarded_of_forall {as : List A} (h : ∀ a ∈ as, ∀ s, G s a) : Guarded step G as s := by
  induction as generalizing s with
  | nil => trivial
  | cons a as ih =>
    obtain ⟨ha, has⟩ := List.forall_mem_cons.1 h
    exact ⟨ha s, fun s' _ => ih has⟩

theorem Guarded.append {as bs : List A} (h : Guarded step G as s)
    (h' : ∀ s', run step as s = some s' → Guarded step G bs s') : Guarded step G (as ++ bs) s := by
  induction as generalizing s with
  | nil => exact h' s rfl
  | cons a as ih =>
    refine ⟨h.1, fun s' hs => ih (h.2 s' hs) fun t ht => h' t ?_⟩
    rw [run, hs]
    exact ht

theorem always_iff_guarded {I P : S → Prop} (holds : ∀ s, I s → P s)
    (keep : ∀ s a s', I s → G s a → step s a = some s' → I s')
    (fails : ∀ s a s', I s → ¬G s a → step s a = some s' → ¬P s')
    {as : List A} (hI : I s) (hr : (run step as s).isSome) :
    Always step P as s ↔ Guarded step G as s := by
  induction as generalizing s with
  | nil => exact iff_of_true (holds s hI) trivial
  | cons a as ih =>
    obtain ⟨t, ht⟩ := Option.isSome_iff_exists.1 hr
    obtain ⟨s', hs', ht⟩ := Option.bind_eq_some_iff.1 ht
    have hnext {Q : S → Prop} : (∀ s'', step s a = some s'' → Q s'') ↔ Q s' :=
      ⟨fun h => h s' hs', fun h s'' hs'' => Option.some.inj (hs'.symm.trans hs'') ▸ h⟩
    have hsome : (run step as s').isSome := Option.isSome_iff_exists.2 ⟨t, ht⟩
    simp only [Always, Guarded, hnext, holds s hI, true_and]
    by_cases hG : G s a
    · rw [ih (keep s a s' hI hG hs') hsome]
      exact (and_iff_right hG).symm
    · refine iff_of_false (fun h => fails s a s' hI hG hs' ?_) fun h => hG h.1
      -- the state after the step is the first of the rest of the run
      cases as with
      | nil => exact h
      | cons b bs => exact h.1

end Lib
