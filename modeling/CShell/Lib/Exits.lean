/-
  Programs that may end in the middle.

  A step of such a program goes on with a value, `.ok a`, or ends the program,
  `.error e`.  `Ends P E` says that `P` holds where it goes on and `E` where the
  program has ended; there is a rule for each way to put steps together.
  `Safe P` is the case of a program that must not end, by a fault.
-/
import CShell.Lib.CArray
import Mathlib.Data.List.Basic

namespace Lib

section
variable {ε α β σ : Type} {P : α → Prop} {Q : β → Prop} {E : ε → Prop} {r : Except ε α}
  {f : α → Except ε β}

/-- A computation ends with a value or with an error of these kinds. -/
def Ends (P : α → Prop) (E : ε → Prop) : Except ε α → Prop
  | .ok a => P a
  | .error e => E e

theorem Ends.bind (h : Ends P E r) (hf : ∀ a, P a → Ends Q E (f a)) : Ends Q E (r >>= f) := by
  cases r with
  | ok a => exact hf a h
  | error e => exact h

theorem Ends.mono {P' : α → Prop} {E' : ε → Prop} (h : Ends P E r) (hP : ∀ a, P a → P' a)
    (hE : ∀ e, E e → E' e) : Ends P' E' r := by
  cases r with
  | ok a => exact hP a h
  | error e => exact hE e h

theorem Ends.ite {p : Prop} [Decidable p] {r' : Except ε α} (hthen : p → Ends P E r)
    (helse : ¬p → Ends P E r') : Ends P E (if p then r else r') := by
  by_cases h : p
  · rw [if_pos h]
    exact hthen h
  · rw [if_neg h]
    exact helse h

/-- **Loops over a list.**  The invariant knows what has been gone through. -/
theorem Ends.foldlM {I : List α → σ → Prop} {g : σ → α → Except ε σ} {l : List α}
    (hstep : ∀ past a rest s, l = past ++ a :: rest → I past s → Ends (I (past ++ [a])) E (g s a))
    {s : σ} (hs : I [] s) : Ends (I l) E (l.foldlM g s) := by
  suffices h : ∀ rest past s, l = past ++ rest → I past s → Ends (I l) E (rest.foldlM g s) from
    h l [] s rfl hs
  intro rest
  induction rest with
  | nil =>
    intro past s hl hs
    rw [List.append_nil] at hl
    subst hl
    exact hs
  | cons a rest ih =>
    intro past s hl hs
    rw [List.foldlM_cons]
    refine (hstep past a rest s hl hs).bind ?_
    intro s' hs'
    exact ih (past ++ [a]) s' (by rw [hl, List.append_assoc, List.singleton_append]) hs'

end

/-! ## Branches

Two programs that branch alike go on alike if their branches do. -/

section
variable {ε α β γ : Type} {p : Prop} [Decidable p] {x y : Except ε α} {a b : Except ε β}
  {f : α → γ} {g : α → Except ε γ} {k : β → Except ε γ}

theorem map_ite_eq (hthen : f <$> x = a >>= k) (helse : f <$> y = b >>= k) :
    f <$> (if p then x else y) = (if p then a else b) >>= k := by
  by_cases h : p
  · rw [if_pos h, if_pos h, hthen]
  · rw [if_neg h, if_neg h, helse]

theorem bind_ite_eq (hthen : x >>= g = a >>= k) (helse : y >>= g = b >>= k) :
    (if p then x else y) >>= g = (if p then a else b) >>= k := by
  by_cases h : p
  · rw [if_pos h, if_pos h, hthen]
  · rw [if_neg h, if_neg h, helse]

end

/-! ## Faults -/

section
variable {α : Type} {P : α → Prop} {cap : ℕ} {xs : List α}

/-- There is no fault, and the value has `P`. -/
abbrev Safe (P : α → Prop) (r : Except Fault α) : Prop := Ends P (fun _ => False) r

theorem Safe.exists_ok {r : Except Fault α} (h : Safe P r) : ∃ a, r = .ok a ∧ P a := by
  cases r with
  | ok a => exact ⟨a, rfl, h⟩
  | error e => exact h.elim

/-- Behind a character that is not the NUL there is another one. -/
theorem safe_readAt [OfNat α 0] {s : List α} {pos : ℕ} (h : pos ≤ s.length) :
    Safe (fun c => c ≠ 0 → pos < s.length) (readAt s pos) := by
  rw [readAt]
  rcases Nat.lt_or_eq_of_le h with hlt | rfl
  · rw [List.getElem?_append_left hlt, List.getElem?_eq_getElem hlt]
    intro _
    exact hlt
  · rw [List.getElem?_append_right (Nat.le_refl _), Nat.sub_self]
    intro hne
    exact absurd rfl hne

theorem safe_push (x : α) (h : xs.length < cap) : Safe (· = xs ++ [x]) (push cap xs x) := by
  rw [push_of_lt x h]
  rfl

theorem safe_terminate (h : xs.length < cap) : Safe (· = xs) (terminate cap xs) := by
  rw [terminate_of_lt h]
  rfl

end

end Lib
