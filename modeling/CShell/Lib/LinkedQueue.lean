/-
  Queues linked through their elements.

  A queue has a head and a tail; each element carries the link to the next
  one.  The links of all elements are one function `next`, shared by all
  queues.  `IsQueue` says that a queue holds the elements of a list, in this
  order, and that the list has no element twice.

  * `IsQueue.enqueue`, `IsQueue.deque`: the operations append and take the
    first element;
  * `IsQueue.congr`: a queue is not affected by links of other elements;
  * `AreQueues`: several queues hold lists without a common element, and an
    operation on one of them changes that list only.
-/
import Mathlib.Data.List.Nodup
import Mathlib.Logic.Function.Basic

namespace Lib

variable {α : Type}

/-- A queue that is linked through a `next` field of its elements. -/
structure LinkedQueue (α : Type) where
  head : Option α
  tail : Option α
  deriving DecidableEq, Repr

namespace LinkedQueue

/-- The queue without elements. -/
def empty : LinkedQueue α := ⟨none, none⟩

/-- Append `p`; the links of `p` and of the old tail change. -/
def enqueue [DecidableEq α] (p : α) (q : LinkedQueue α) (next : α → Option α) :
    LinkedQueue α × (α → Option α) :=
  let next := Function.update next p none
  match q.tail with
  | none => (⟨some p, some p⟩, next)
  | some t => (⟨q.head, some p⟩, Function.update next t (some p))

/-- Take the first element, whose link is cleared. -/
def deque [DecidableEq α] (q : LinkedQueue α) (next : α → Option α) :
    Option (α × LinkedQueue α × (α → Option α)) :=
  match q.head with
  | none => none
  | some p =>
    let tail := if next p = none then none else q.tail
    some (p, ⟨next p, tail⟩, Function.update next p none)

end LinkedQueue

/-- Each element is linked to the one after it, the last to none. -/
def Linked (next : α → Option α) : List α → Prop
  | [] => True
  | x :: l => next x = l.head? ∧ Linked next l

theorem Linked.congr {next next' : α → Option α} {l : List α} (h : Linked next l)
    (hn : ∀ x ∈ l, next' x = next x) : Linked next' l := by
  induction l with
  | nil => trivial
  | cons x l ih =>
    rw [List.forall_mem_cons] at hn
    exact ⟨hn.1.trans h.1, ih h.2 hn.2⟩

/-- The queue holds the elements of the list, each once. -/
structure IsQueue (next : α → Option α) (q : LinkedQueue α) (l : List α) : Prop where
  head : q.head = l.head?
  tail : q.tail = l.getLast?
  linked : Linked next l
  nodup : l.Nodup

/-- The queues hold the lists, and no element is in two of them. -/
structure AreQueues {ι : Type} (next : α → Option α) (queues : ι → LinkedQueue α)
    (L : ι → List α) : Prop where
  queue : ∀ i, IsQueue next (queues i) (L i)
  unique : ∀ i j x, x ∈ L i → x ∈ L j → i = j

variable {next next' : α → Option α} {q : LinkedQueue α} {l l' : List α} {p : α}

theorem IsQueue.nil (next : α → Option α) : IsQueue next .empty [] := ⟨rfl, rfl, trivial, .nil⟩

theorem IsQueue.congr (h : IsQueue next q l) (hn : ∀ x ∈ l, next' x = next x) :
    IsQueue next' q l :=
  ⟨h.head, h.tail, h.linked.congr hn, h.nodup⟩

/-- A queue holds one list only. -/
theorem Linked.unique (h : Linked next l) (h' : Linked next l') (hh : l.head? = l'.head?) :
    l = l' := by
  induction l generalizing l' with
  | nil =>
    cases l' with
    | nil => rfl
    | cons y l' => cases hh
  | cons x l ih =>
    cases l' with
    | nil => cases hh
    | cons y l' =>
      obtain rfl : x = y := Option.some.inj hh
      rw [ih h.2 h'.2 (h.1.symm.trans h'.1)]

theorem IsQueue.unique (h : IsQueue next q l) (h' : IsQueue next q l') : l = l' :=
  h.linked.unique h'.linked (h.head.symm.trans h'.head)

theorem IsQueue.head_eq_none_iff (h : IsQueue next q l) : q.head = none ↔ q.tail = none := by
  rw [h.head, h.tail, List.head?_eq_none_iff, List.getLast?_eq_none_iff]

theorem Linked.getLast {t : α} (h : Linked next l) (ht : l.getLast? = some t) :
    next t = none := by
  induction l with
  | nil => cases ht
  | cons x l ih =>
    cases l with
    | nil =>
      cases ht
      exact h.1
    | cons y l =>
      rw [List.getLast?_cons_cons] at ht
      exact ih h.2 ht

/-- The last element is linked to none. -/
theorem IsQueue.next_tail {t : α} (h : IsQueue next q l) (ht : q.tail = some t) :
    next t = none :=
  h.linked.getLast (h.tail ▸ ht)

variable [DecidableEq α]

theorem Linked.concat {t : α} (h : Linked next (l ++ [t])) (ht : t ∉ l) (hp : p ∉ l ++ [t]) :
    Linked (Function.update (Function.update next p none) t (some p)) (l ++ [t] ++ [p]) := by
  rw [List.mem_append, List.mem_singleton, not_or] at hp
  induction l with
  | nil =>
    refine ⟨Function.update_self .., ?_, trivial⟩
    rw [Function.update_of_ne hp.2, Function.update_self]
    rfl
  | cons x l ih =>
    rw [List.mem_cons, not_or] at ht
    have hpx : p ≠ x ∧ p ∉ l := by simpa using hp.1
    refine ⟨?_, ih h.2 ht.2 ⟨hpx.2, hp.2⟩⟩
    rw [Function.update_of_ne (Ne.symm ht.1), Function.update_of_ne (Ne.symm hpx.1), h.1]
    cases l <;> rfl

/-- **`enqueue` appends.** -/
theorem IsQueue.enqueue (h : IsQueue next q l) (hp : p ∉ l) :
    IsQueue (q.enqueue p next).2 (q.enqueue p next).1 (l ++ [p]) := by
  rcases List.eq_nil_or_concat l with rfl | ⟨l₀, t, rfl⟩
  · have ht : q.tail = none := h.tail
    simp only [LinkedQueue.enqueue, ht]
    exact ⟨rfl, rfl, ⟨Function.update_self .., trivial⟩, by simp⟩
  · rw [List.concat_eq_append] at h hp ⊢
    have ht : q.tail = some t := by rw [h.tail, List.getLast?_concat]
    have htl : t ∉ l₀ := fun hmem =>
      (List.nodup_append.1 h.nodup).2.2 t hmem t (.head _) rfl
    simp only [LinkedQueue.enqueue, ht]
    refine ⟨?_, by rw [List.getLast?_concat], h.linked.concat htl hp, ?_⟩
    · rw [h.head]
      cases l₀ <;> rfl
    · rw [List.nodup_append]
      refine ⟨h.nodup, by simp, fun x hx y hy hxy => ?_⟩
      rw [List.mem_singleton] at hy
      exact hp (hy ▸ hxy ▸ hx)

/-- Only the links of the new element and of the tail change. -/
theorem LinkedQueue.enqueue_next_of_ne {x : α} (hx : x ≠ p) (ht : q.tail ≠ some x) :
    (q.enqueue p next).2 x = next x := by
  rw [LinkedQueue.enqueue]
  rcases h : q.tail with _ | t
  · exact Function.update_of_ne hx ..
  · have hxt : x ≠ t := fun hxt => ht (h.trans (congrArg some hxt.symm))
    simp only
    rw [Function.update_of_ne hxt, Function.update_of_ne hx]

theorem IsQueue.deque_nil (h : IsQueue next q []) : q.deque next = none := by
  rw [LinkedQueue.deque, show q.head = none from h.head]

/-- **`deque` takes the first element.** -/
theorem IsQueue.deque (h : IsQueue next q (p :: l)) :
    ∃ q', q.deque next = some (p, q', Function.update next p none) ∧
      IsQueue (Function.update next p none) q' l := by
  have hp := List.nodup_cons.1 h.nodup
  refine ⟨_, by rw [LinkedQueue.deque, show q.head = some p from h.head], ?_⟩
  refine ⟨h.linked.1, ?_, h.linked.2.congr fun x hx => ?_, hp.2⟩
  · simp only [h.linked.1, h.tail]
    cases l with
    | nil => rfl
    | cons y l => simp [List.getLast?_cons_cons]
  · rw [Function.update_of_ne]
    rintro rfl
    exact hp.1 hx

/-! ## Several queues -/

variable {ι : Type} {queues : ι → LinkedQueue α} {L : ι → List α} {i : ι}

namespace AreQueues

theorem deque_eq_none_iff (h : AreQueues next queues L) :
    (queues i).deque next = none ↔ L i = [] := by
  have hi := h.queue i
  rcases hL : L i with _ | ⟨p, l⟩
  · rw [hL] at hi
    exact iff_of_true hi.deque_nil rfl
  · rw [hL] at hi
    obtain ⟨q', hq', -⟩ := hi.deque
    rw [hq']
    exact iff_of_false (by simp) (by simp)

variable [DecidableEq ι]

/-- **`enqueue` appends to one of the lists.** -/
theorem enqueue (h : AreQueues next queues L) (hp : ∀ j, p ∉ L j) (i : ι) :
    AreQueues ((queues i).enqueue p next).2
      (Function.update queues i ((queues i).enqueue p next).1)
      (Function.update L i (L i ++ [p])) := by
  have hmem : ∀ j x, x ∈ Function.update L i (L i ++ [p]) j ↔ x ∈ L j ∨ j = i ∧ x = p := by
    intro j x
    by_cases hj : j = i
    · subst hj
      simp
    · simp [hj]
  constructor
  · intro j
    by_cases hj : j = i
    · subst hj
      rw [Function.update_self, Function.update_self]
      exact (h.queue j).enqueue (hp j)
    · rw [Function.update_of_ne hj, Function.update_of_ne hj]
      refine (h.queue j).congr fun x hx => LinkedQueue.enqueue_next_of_ne ?_ fun ht => ?_
      · rintro rfl
        exact hp j hx
      · -- the tail of the other queue is not in this one
        rw [(h.queue i).tail] at ht
        exact hj (h.unique j i x hx (List.mem_of_getLast? ht))
  · intro j k x hj hk
    rw [hmem] at hj hk
    rcases hj with hj | ⟨rfl, rfl⟩
    · rcases hk with hk | ⟨rfl, rfl⟩
      · exact h.unique j k x hj hk
      · exact absurd hj (hp j)
    · rcases hk with hk | ⟨rfl, -⟩
      · exact absurd hk (hp k)
      · rfl

/-- **`deque` takes the first element of one of the lists.** -/
theorem deque (h : AreQueues next queues L) (hL : L i = p :: l) :
    ∃ q', (queues i).deque next = some (p, q', Function.update next p none) ∧
      AreQueues (Function.update next p none) (Function.update queues i q')
        (Function.update L i l) ∧ ∀ j, p ∉ Function.update L i l j := by
  have hi := h.queue i
  rw [hL] at hi
  obtain ⟨q', hd, hq'⟩ := hi.deque
  have hpi : p ∈ L i := hL ▸ List.mem_cons_self
  have hsub : ∀ j x, x ∈ Function.update L i l j → x ∈ L j := by
    intro j x hx
    by_cases hj : j = i
    · subst hj
      rw [Function.update_self] at hx
      exact hL ▸ List.mem_cons_of_mem _ hx
    · rwa [Function.update_of_ne hj] at hx
  have hgone : ∀ j, p ∉ Function.update L i l j := by
    intro j hp
    have hji : j = i := h.unique j i p (hsub j p hp) hpi
    subst hji
    rw [Function.update_self] at hp
    exact (List.nodup_cons.1 hi.nodup).1 hp
  refine ⟨q', hd, ⟨?_, ?_⟩, hgone⟩
  · intro j
    by_cases hj : j = i
    · subst hj
      rw [Function.update_self, Function.update_self]
      exact hq'
    · rw [Function.update_of_ne hj, Function.update_of_ne hj]
      refine (h.queue j).congr fun x hx => Function.update_of_ne ?_ ..
      rintro rfl
      exact hj (h.unique j i x hx hpi)
  · intro j k x hj hk
    exact h.unique j k x (hsub j x hj) (hsub k x hk)

end AreQueues

end Lib
