/-
  Sorting with a comparison function.

  `IsQsort` says what `qsort` of the C library does, whatever its algorithm: if
  the comparison function orders the elements, they are put in this order.
  Elements that compare equal may come out in any order.

  * `Sorts.unique`: with a function that tells different elements apart, the
    result depends on neither the algorithm nor the order of the input;
  * `isQsort_mergeQsort`: there is such an algorithm.
-/
import Mathlib.Data.List.Sort

namespace Lib

variable {α : Type} {cmp : α → α → ℤ} {l l' out out' : List α}

/-- `cmp` orders the elements of an array. -/
structure Comparison (cmp : α → α → ℤ) (l : List α) : Prop where
  neg : ∀ a ∈ l, ∀ b ∈ l, (cmp a b < 0 ↔ 0 < cmp b a)
  trans : ∀ a ∈ l, ∀ b ∈ l, ∀ c ∈ l, cmp a b ≤ 0 → cmp b c ≤ 0 → cmp a c ≤ 0

/-- It tells different ones apart. -/
structure StrictComparison (cmp : α → α → ℤ) (l : List α) : Prop extends Comparison cmp l where
  eq_of_zero : ∀ a ∈ l, ∀ b ∈ l, cmp a b = 0 → a = b

/-- The elements of `l` are in order in `out`. -/
structure Sorts (cmp : α → α → ℤ) (l out : List α) : Prop where
  perm : out.Perm l
  sorted : out.Pairwise fun a b => cmp a b ≤ 0

/-- What `qsort` guarantees: it sorts whenever the comparison is one. -/
def IsQsort (qsort : (α → α → ℤ) → List α → List α) : Prop :=
  ∀ cmp l, Comparison cmp l → Sorts cmp l (qsort cmp l)

/-! ## The result -/

theorem Comparison.zero_of_le (h : Comparison cmp l) {a b : α} (ha : a ∈ l) (hb : b ∈ l)
    (hab : cmp a b ≤ 0) (hba : cmp b a ≤ 0) : cmp a b = 0 := by
  have := h.neg a ha b hb
  omega

/-- **One result.** -/
theorem Sorts.unique (hcmp : StrictComparison cmp l) (h : Sorts cmp l out)
    (h' : Sorts cmp l' out') (hp : l'.Perm l) : out = out' := by
  refine List.Perm.eq_of_pairwise ?_ h.sorted h'.sorted (h.perm.trans (h'.perm.trans hp).symm)
  intro a b ha hb hab hba
  have ha' : a ∈ l := h.perm.mem_iff.1 ha
  have hb' : b ∈ l := (h'.perm.trans hp).mem_iff.1 hb
  exact hcmp.eq_of_zero a ha' b hb' (hcmp.zero_of_le ha' hb' hab hba)

theorem Sorts.pairwise_lt (hcmp : StrictComparison cmp l) (hl : l.Nodup) (h : Sorts cmp l out) :
    out.Pairwise fun a b => cmp a b < 0 := by
  have hout : out.Nodup := h.perm.nodup_iff.2 hl
  refine (h.sorted.and hout).imp_of_mem ?_
  intro a b ha hb hab
  have hne : cmp a b ≠ 0 :=
    mt (hcmp.eq_of_zero a (h.perm.mem_iff.1 ha) b (h.perm.mem_iff.1 hb)) hab.2
  exact lt_of_le_of_ne hab.1 hne

/-- A comparison by two keys: more of the first one comes first, and less of the
    second one. -/
theorem strictComparison_of_keys {first second : α → ℤ}
    (h : ∀ a ∈ l, ∀ b ∈ l, cmp a b =
      if first a ≠ first b then first b - first a else second a - second b)
    (hinj : ∀ a ∈ l, ∀ b ∈ l, second a = second b → a = b) : StrictComparison cmp l := by
  refine ⟨⟨?_, ?_⟩, ?_⟩
  · intro a ha b hb
    rw [h a ha b hb, h b hb a ha]
    split_ifs <;> omega
  · intro a ha b hb c hc
    rw [h a ha b hb, h b hb c hc, h a ha c hc]
    split_ifs <;> omega
  · intro a ha b hb hzero
    rw [h a ha b hb] at hzero
    refine hinj a ha b hb ?_
    split_ifs at hzero <;> omega

/-! ## An algorithm -/

/-- Merge sort; the elements are taken with their membership, for which `cmp` is
    an order. -/
def mergeQsort (cmp : α → α → ℤ) (l : List α) : List α :=
  (l.attach.mergeSort fun a b => decide (cmp a.1 b.1 ≤ 0)).map Subtype.val

theorem isQsort_mergeQsort : IsQsort (@mergeQsort α) := by
  intro cmp l h
  let le : {a // a ∈ l} → {a // a ∈ l} → Bool := fun a b => decide (cmp a.1 b.1 ≤ 0)
  have htrans : ∀ a b c, le a b → le b c → le a c := by
    intro a b c hab hbc
    exact decide_eq_true (h.trans a.1 a.2 b.1 b.2 c.1 c.2 (of_decide_eq_true hab)
      (of_decide_eq_true hbc))
  have htotal : ∀ a b, le a b || le b a := by
    intro a b
    have := h.neg b.1 b.2 a.1 a.2
    rw [Bool.or_eq_true, decide_eq_true_iff, decide_eq_true_iff]
    omega
  constructor
  · have hp := (List.mergeSort_perm l.attach le).map Subtype.val
    rwa [List.attach_map_subtype_val] at hp
  · rw [mergeQsort, List.pairwise_map]
    exact (List.pairwise_mergeSort htrans htotal l.attach).imp of_decide_eq_true

end Lib
