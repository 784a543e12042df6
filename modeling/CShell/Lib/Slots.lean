/-
  Tables kept in the first slots of an array.

  A table is the list of its slots.  `updateFirst` is the loop that looks for
  the first slot a function applies to and changes it in place; `swapRemove`
  removes a slot by moving the last one into its place, and `copyLast` is that
  removal before the count of slots is lowered.
-/
import Mathlib.Data.List.Perm.Basic

namespace Lib

variable {α β γ : Type}

/-- What is in a slot after one has been set. -/
theorem getElem?_set_cases {l : List α} {x y : α} {i j : ℕ} (h : (l.set i x)[j]? = some y) :
    (j = i ∧ y = x) ∨ (j ≠ i ∧ l[j]? = some y) := by
  by_cases hj : j = i
  · subst hj
    rw [List.getElem?_set_self'] at h
    obtain ⟨-, -, rfl⟩ := Option.map_eq_some_iff.1 h
    exact .inl ⟨rfl, rfl⟩
  · rw [List.getElem?_set_ne (Ne.symm hj)] at h
    exact .inr ⟨hj, h⟩

/-! ## The first slot that matches -/

/-- Change the first slot at which `f` is defined; `f` also gives a result of
    the change. -/
def updateFirst (f : α → Option (α × β)) : List α → Option (List α × β)
  | [] => none
  | x :: xs =>
    match f x with
    | some (y, b) => some (y :: xs, b)
    | none => (updateFirst f xs).map fun r => (x :: r.1, r.2)

theorem updateFirst_eq_none {f : α → Option (α × β)} {l : List α} :
    updateFirst f l = none ↔ ∀ x ∈ l, f x = none := by
  induction l with
  | nil => simp [updateFirst]
  | cons x xs ih =>
    rcases hx : f x with _ | ⟨y, b⟩
    · simp [updateFirst, hx, ih]
    · simp [updateFirst, hx]

/-- What the loop finds and what it changes. -/
theorem exists_of_updateFirst {f : α → Option (α × β)} {l l' : List α} {b : β}
    (h : updateFirst f l = some (l', b)) :
    ∃ pre x y post, l = pre ++ x :: post ∧ l' = pre ++ y :: post ∧ f x = some (y, b) := by
  induction l generalizing l' with
  | nil => cases h
  | cons x xs ih =>
    rcases hx : f x with _ | ⟨y, c⟩
    · simp only [updateFirst, hx, Option.map_eq_some_iff, Prod.mk.injEq] at h
      obtain ⟨⟨ys, c⟩, hys, rfl, rfl⟩ := h
      obtain ⟨pre, z, w, post, rfl, hl', hz⟩ := ih hys
      exact ⟨x :: pre, z, w, post, rfl, by rw [hl']; rfl, hz⟩
    · simp only [updateFirst, hx, Option.some.injEq, Prod.mk.injEq] at h
      obtain ⟨rfl, rfl⟩ := h
      exact ⟨[], x, y, xs, rfl, rfl, hx⟩

/-- A match in the front part is found there. -/
theorem updateFirst_append {f : α → Option (α × β)} {l l' m : List α} {b : β}
    (h : updateFirst f l = some (l', b)) : updateFirst f (l ++ m) = some (l' ++ m, b) := by
  induction l generalizing l' with
  | nil => cases h
  | cons x xs ih =>
    rcases hx : f x with _ | ⟨y, c⟩
    · simp only [updateFirst, hx, Option.map_eq_some_iff, Prod.mk.injEq] at h
      obtain ⟨⟨ys, c⟩, hys, rfl, rfl⟩ := h
      simp [updateFirst, hx, ih hys]
    · simp only [updateFirst, hx, Option.some.injEq, Prod.mk.injEq] at h
      obtain ⟨rfl, rfl⟩ := h
      simp [updateFirst, hx]

/-- Without a match in the front part, that part stays as it is. -/
theorem updateFirst_append_of_none {f : α → Option (α × β)} {l m : List α}
    (h : updateFirst f l = none) :
    updateFirst f (l ++ m) = (updateFirst f m).map fun r => (l ++ r.1, r.2) := by
  induction l with
  | nil => simp
  | cons x xs ih =>
    rw [updateFirst_eq_none, List.forall_mem_cons] at h
    simp only [List.cons_append, updateFirst, h.1, ih (updateFirst_eq_none.2 h.2), Option.map_map]
    rfl

/-- The slots before the last one are changed as without it, or not at all. -/
theorem updateFirst_dropLast {f : α → Option (α × β)} {l l' : List α} {b : β}
    (h : updateFirst f l = some (l', b)) :
    l'.dropLast = l.dropLast ∨ updateFirst f l.dropLast = some (l'.dropLast, b) := by
  rcases List.eq_nil_or_concat l with rfl | ⟨xs, z, rfl⟩
  · cases h
  rw [List.concat_eq_append] at h ⊢
  rw [List.dropLast_concat]
  rcases hu : updateFirst f xs with _ | ⟨ys, c⟩
  · obtain ⟨⟨zs, c⟩, hz, hl⟩ := Option.map_eq_some_iff.1 (updateFirst_append_of_none hu ▸ h)
    obtain ⟨rfl, rfl⟩ := Prod.mk.inj hl
    obtain ⟨pre, x, y, post, hx, rfl, -⟩ := exists_of_updateFirst hz
    rcases List.append_eq_singleton_iff.1 hx.symm with ⟨rfl, hpost⟩ | ⟨-, hpost⟩
    · obtain ⟨-, rfl⟩ := List.cons.inj hpost
      exact .inl (List.dropLast_concat ..)
    · cases hpost
  · rw [updateFirst_append hu] at h
    obtain ⟨rfl, rfl⟩ := Prod.mk.inj (Option.some.inj h)
    exact .inr (by rw [List.dropLast_concat])

/-- What no change of a slot can alter is the same for the whole table. -/
theorem map_updateFirst {f : α → Option (α × β)} {g : α → γ} {l l' : List α} {b : β}
    (hg : ∀ x y b, f x = some (y, b) → g y = g x) (h : updateFirst f l = some (l', b)) :
    l'.map g = l.map g := by
  obtain ⟨pre, x, y, post, rfl, rfl, hx⟩ := exists_of_updateFirst h
  simp [hg x y b hx]

/-- The first slot that has a property no change of a slot can alter stays the
    first one, and is changed at most. -/
theorem find?_updateFirst {f : α → Option (α × β)} {p : α → Bool} {l l' : List α} {b : β} {x : α}
    (hp : ∀ x y b, f x = some (y, b) → p y = p x) (h : updateFirst f l = some (l', b))
    (hx : l.find? p = some x) :
    ∃ y, l'.find? p = some y ∧ (y = x ∨ f x = some (y, b)) := by
  obtain ⟨pre, z, w, post, rfl, rfl, hz⟩ := exists_of_updateFirst h
  have hw : p w = p z := hp z w b hz
  rw [List.find?_append] at hx ⊢
  rcases hpre : pre.find? p with _ | y
  · rw [hpre, Option.none_or] at hx
    rw [Option.none_or]
    by_cases hpz : p z
    · rw [List.find?_cons_of_pos hpz] at hx
      cases hx
      exact ⟨w, List.find?_cons_of_pos (hw.trans hpz), .inr hz⟩
    · rw [List.find?_cons_of_neg hpz] at hx
      exact ⟨x, by rw [List.find?_cons_of_neg (hw ▸ hpz), hx], .inl rfl⟩
  · rw [hpre, Option.some_or] at hx
    exact ⟨x, by rw [Option.some_or, hx], .inl rfl⟩

/-! ## Removal by moving the last slot -/

/-- Copy the last slot over slot `i`. -/
def copyLast (i : ℕ) (l : List α) : List α :=
  match l.getLast? with
  | some x => l.set i x
  | none => l

/-- Remove slot `i`: the last slot takes its place. -/
def swapRemove (i : ℕ) (l : List α) : List α := (copyLast i l).dropLast

theorem copyLast_of_lt {xs : List α} {i : ℕ} (z : α) (h : i < xs.length) :
    copyLast i (xs ++ [z]) = xs.set i z ++ [z] := by
  simp [copyLast, List.set_append_left _ _ h]

theorem copyLast_length (xs : List α) (z : α) : copyLast xs.length (xs ++ [z]) = xs ++ [z] := by
  simp [copyLast]

/-- A slot of a table is one before the last or the last. -/
theorem slot_cases {l : List α} {i : ℕ} {x : α} (h : l[i]? = some x) :
    ∃ xs z, l = xs ++ [z] ∧ (i < xs.length ∧ xs[i]? = some x ∨ i = xs.length ∧ z = x) := by
  rcases List.eq_nil_or_concat l with rfl | ⟨xs, z, rfl⟩
  · cases h
  rw [List.concat_eq_append] at h ⊢
  refine ⟨xs, z, rfl, ?_⟩
  rcases Nat.lt_or_ge i xs.length with hi | hi
  · exact .inl ⟨hi, by rwa [List.getElem?_append_left hi] at h⟩
  · obtain ⟨hlt, rfl⟩ := List.getElem?_eq_some_iff.1 h
    have hlt' : i < xs.length + 1 := by simpa using hlt
    obtain rfl : i = xs.length := by omega
    exact .inr ⟨rfl, by simp⟩

/-- The copied slot stays at its new place, or is the slot to be removed. -/
theorem exists_of_copyLast {l : List α} {i : ℕ} {x : α} (h : l[i]? = some x) :
    ∃ z, copyLast i l = swapRemove i l ++ [z] ∧ (z ∈ swapRemove i l ∨ z = x) := by
  obtain ⟨xs, z, rfl, ⟨hi, -⟩ | ⟨rfl, rfl⟩⟩ := slot_cases h
  · refine ⟨z, ?_, .inl ?_⟩ <;> rw [swapRemove, copyLast_of_lt z hi, List.dropLast_concat]
    exact List.mem_set hi z
  · exact ⟨z, by rw [swapRemove, copyLast_length, List.dropLast_concat], .inr rfl⟩

/-- Removal by moving the last slot removes that one slot. -/
theorem perm_swapRemove {l : List α} {i : ℕ} {x : α} (h : l[i]? = some x) :
    l.Perm (x :: swapRemove i l) := by
  obtain ⟨xs, z, rfl, ⟨hi, hx⟩ | ⟨rfl, rfl⟩⟩ := slot_cases h
  · obtain ⟨_, rfl⟩ := List.getElem?_eq_some_iff.1 hx
    rw [swapRemove, copyLast_of_lt z hi, List.dropLast_concat,
      List.set_eq_take_append_cons_drop, if_pos hi]
    -- `xs[i]` and the last slot trade places
    calc xs ++ [z] = xs.take i ++ xs[i] :: xs.drop (i + 1) ++ [z] := by simp
      _ |>.Perm (z :: (xs.take i ++ xs[i] :: xs.drop (i + 1))) := List.perm_append_singleton _ _
      _ |>.Perm (z :: xs[i] :: (xs.take i ++ xs.drop (i + 1))) := .cons _ List.perm_middle
      _ |>.Perm (xs[i] :: z :: (xs.take i ++ xs.drop (i + 1))) := .swap _ _ _
      _ |>.Perm (xs[i] :: (xs.take i ++ z :: xs.drop (i + 1))) := .cons _ List.perm_middle.symm
  · rw [swapRemove, copyLast_length, List.dropLast_concat]
    exact List.perm_append_singleton _ _

end Lib
