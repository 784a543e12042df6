/-
  First and last occurrences in a sequence that grows at its end.

  `List.eraseDups` keeps the first occurrence of each element and
  `firstDistinct n` the first `n` of these, as a table with `n` places does;
  `lastIndex` is the position, from 1, of the last occurrence.
-/
import Mathlib.Data.List.Infix

namespace Lib

variable {α : Type} [BEq α] [LawfulBEq α] {l : List α} {a b : α}

/-! ## First occurrences -/

theorem eraseDups_concat_of_mem (h : a ∈ l) : (l ++ [a]).eraseDups = l.eraseDups := by
  rw [List.eraseDups_append]
  simp [List.removeAll, h]

theorem eraseDups_concat_of_notMem (h : a ∉ l) :
    (l ++ [a]).eraseDups = l.eraseDups ++ [a] := by
  rw [List.eraseDups_append]
  simp [List.removeAll, h, List.eraseDups_cons]

/-- They are in the order in which they occur. -/
theorem pairwise_idxOf_eraseDups (l : List α) :
    l.eraseDups.Pairwise fun a b => l.idxOf a < l.idxOf b := by
  induction l using List.reverseRecOn with
  | nil => simp
  | append_singleton l a ih =>
    have hold : l.eraseDups.Pairwise fun b c => (l ++ [a]).idxOf b < (l ++ [a]).idxOf c := by
      refine ih.imp_of_mem ?_
      intro b c hb hc hlt
      rw [List.mem_eraseDups] at hb hc
      rwa [List.idxOf_append_of_mem hb, List.idxOf_append_of_mem hc]
    by_cases h : a ∈ l
    · rwa [eraseDups_concat_of_mem h]
    · rw [eraseDups_concat_of_notMem h, List.pairwise_append]
      refine ⟨hold, List.pairwise_singleton _ _, ?_⟩
      intro b hb c hc
      rw [List.mem_eraseDups] at hb
      rw [List.mem_singleton] at hc
      rw [hc, List.idxOf_append_of_mem hb, List.idxOf_append_of_notMem h]
      exact Nat.lt_add_right _ (List.idxOf_lt_length_of_mem hb)

theorem nodup_eraseDups (l : List α) : l.eraseDups.Nodup := by
  refine (pairwise_idxOf_eraseDups l).imp ?_
  rintro a b h rfl
  exact Nat.lt_irrefl _ h

/-- In an ordered list what is found earlier is smaller. -/
theorem eq_or_rel_of_idxOf_le {R : α → α → Prop} (h : l.Pairwise R) (ha : a ∈ l) (hb : b ∈ l)
    (hle : l.idxOf a ≤ l.idxOf b) : a = b ∨ R a b := by
  rcases Nat.eq_or_lt_of_le hle with heq | hlt
  · exact .inl ((List.idxOf_inj ha).1 heq)
  · have hr := List.pairwise_iff_getElem.1 h _ _ (List.idxOf_lt_length_of_mem ha)
      (List.idxOf_lt_length_of_mem hb) hlt
    rw [List.getElem_idxOf, List.getElem_idxOf] at hr
    exact .inr hr

theorem idxOf_eraseDups_lt_iff (ha : a ∈ l) (hb : b ∈ l) :
    l.eraseDups.idxOf a < l.eraseDups.idxOf b ↔ l.idxOf a < l.idxOf b := by
  have hord := pairwise_idxOf_eraseDups l
  have ha' := List.mem_eraseDups.2 ha
  have hb' := List.mem_eraseDups.2 hb
  constructor
  · intro h
    refine (eq_or_rel_of_idxOf_le hord ha' hb' (Nat.le_of_lt h)).resolve_left ?_
    rintro rfl
    exact Nat.lt_irrefl _ h
  · intro h
    by_contra hle
    rcases eq_or_rel_of_idxOf_le hord hb' ha' (Nat.le_of_not_lt hle) with rfl | hlt
    · exact Nat.lt_irrefl _ h
    · exact Nat.lt_asymm h hlt

theorem length_eraseDups_le (l : List α) : l.eraseDups.length ≤ l.length := by
  induction l using List.reverseRecOn with
  | nil => exact Nat.le_refl _
  | append_singleton l a ih =>
    by_cases ha : a ∈ l
    · rw [eraseDups_concat_of_mem ha, List.length_append]
      omega
    · rw [eraseDups_concat_of_notMem ha, List.length_append, List.length_append]
      omega

theorem eraseDups_of_nodup (h : l.Nodup) : l.eraseDups = l := by
  induction l using List.reverseRecOn with
  | nil => rfl
  | append_singleton l a ih =>
    rw [List.nodup_append] at h
    have ha : a ∉ l := by
      intro ha
      exact h.2.2 a ha a (List.mem_singleton_self a) rfl
    rw [eraseDups_concat_of_notMem ha, ih h.1]

/-! ## A table of the first ones -/

/-- The first `n` distinct elements, in the order of their first occurrences. -/
def firstDistinct (n : ℕ) (l : List α) : List α := l.eraseDups.take n

variable {n : ℕ}

theorem nodup_firstDistinct (n : ℕ) (l : List α) : (firstDistinct n l).Nodup :=
  (nodup_eraseDups l).sublist (List.take_sublist n _)

theorem mem_of_mem_firstDistinct (h : a ∈ firstDistinct n l) : a ∈ l :=
  List.mem_eraseDups.1 (List.mem_of_mem_take h)

theorem firstDistinct_concat_of_mem (h : a ∈ l) :
    firstDistinct n (l ++ [a]) = firstDistinct n l := by
  rw [firstDistinct, eraseDups_concat_of_mem h, firstDistinct]

/-- While there is room, what is not in the table has not occurred. -/
theorem notMem_of_notMem_firstDistinct (h : a ∉ firstDistinct n l)
    (hroom : (firstDistinct n l).length < n) : a ∉ l := by
  have hall : firstDistinct n l = l.eraseDups := by
    rw [firstDistinct, List.length_take] at hroom
    exact List.take_of_length_le (by omega)
  rwa [hall, List.mem_eraseDups] at h

theorem firstDistinct_concat_of_room (h : a ∉ firstDistinct n l)
    (hroom : (firstDistinct n l).length < n) :
    firstDistinct n (l ++ [a]) = firstDistinct n l ++ [a] := by
  have ha := notMem_of_notMem_firstDistinct h hroom
  rw [firstDistinct, List.length_take] at hroom
  rw [firstDistinct, eraseDups_concat_of_notMem ha, firstDistinct,
    List.take_of_length_le (by simp; omega), List.take_of_length_le (by omega)]

theorem firstDistinct_concat_of_full (hfull : n ≤ (firstDistinct n l).length) :
    firstDistinct n (l ++ [a]) = firstDistinct n l := by
  by_cases ha : a ∈ l
  · exact firstDistinct_concat_of_mem ha
  · rw [firstDistinct, List.length_take] at hfull
    rw [firstDistinct, eraseDups_concat_of_notMem ha, firstDistinct,
      List.take_append_of_le_length (by omega)]

/-! ## The last occurrence -/

/-- The position of the last occurrence, from 1. -/
def lastIndex (a : α) (l : List α) : ℕ := l.length - l.reverse.idxOf a

theorem lastIndex_concat_self : lastIndex a (l ++ [a]) = l.length + 1 := by
  simp [lastIndex]

theorem lastIndex_concat_of_ne (h : a ≠ b) : lastIndex a (l ++ [b]) = lastIndex a l := by
  have hb : (b == a) = false := beq_false_of_ne (Ne.symm h)
  simp [lastIndex, List.idxOf_cons, hb]

end Lib
