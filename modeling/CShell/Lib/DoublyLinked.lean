/-
  Circular lists, linked both ways through their elements and a head.

  The nodes are `none`, the head, and the elements.  `Segment` says that a list leads from
  one node to another by the links `next`, and back by the links `prev`; a ring is a segment
  from the head to itself.

  * `IsRing.unlink`, `IsRing.pushFront`: the assignments that take an element out and that
    put one at the front;
  * `IsRing.search_next`, `IsRing.search_prev`: a loop along the links finds what a search of
    the list finds, from the front or from the back.
-/
import Mathlib.Data.List.Induction
import Mathlib.Data.List.Nodup
import Mathlib.Logic.Function.Basic

namespace Lib

variable {α : Type}

/-- The links of a circular list, where `none` is its head. -/
structure Links (α : Type) where
  next : Option α → Option α
  prev : Option α → Option α

namespace Links

/-- The list leads from the node `a` to the node `c`. -/
def Segment (L : Links α) : Option α → List α → Option α → Prop
  | a, [], c => L.next a = c ∧ L.prev c = a
  | a, b :: l, c => (L.next a = some b ∧ L.prev (some b) = a) ∧ L.Segment (some b) l c

/-- The elements behind the head, in order. -/
structure IsRing (L : Links α) (l : List α) : Prop where
  nodup : l.Nodup
  segment : L.Segment none l none

/-- Only the head. -/
def empty : Links α := ⟨fun _ => none, fun _ => none⟩

theorem isRing_empty : (empty : Links α).IsRing [] := ⟨List.nodup_nil, rfl, rfl⟩

variable {L L' : Links α} {a c : Option α} {b : α} {l l₁ l₂ : List α}

theorem segment_append :
    L.Segment a (l₁ ++ b :: l₂) c ↔ L.Segment a l₁ (some b) ∧ L.Segment (some b) l₂ c := by
  induction l₁ generalizing a with
  | nil => rfl
  | cons e l₁ ih =>
    rw [List.cons_append, Segment, Segment, ih]
    exact and_assoc.symm

theorem Segment.congr (h : L.Segment a l c) (ha : L'.next a = L.next a) (hc : L'.prev c = L.prev c)
    (hnext : ∀ b ∈ l, L'.next (some b) = L.next (some b))
    (hprev : ∀ b ∈ l, L'.prev (some b) = L.prev (some b)) : L'.Segment a l c := by
  induction l generalizing a with
  | nil => exact ⟨ha.trans h.1, hc.trans h.2⟩
  | cons b l ih =>
    rw [List.forall_mem_cons] at hnext hprev
    exact ⟨⟨ha.trans h.1.1, hprev.1.trans h.1.2⟩, ih h.2 hnext.1 hnext.2 hprev.2⟩

/-- The link back from the end. -/
theorem Segment.prev_end (h : L.Segment a l c) :
    (L.prev c = a ∧ l = []) ∨ ∃ b ∈ l, L.prev c = some b := by
  induction l generalizing a with
  | nil => exact .inl ⟨h.2, rfl⟩
  | cons b l ih =>
    rcases ih h.2 with ⟨hp, -⟩ | ⟨b', hb', hp⟩
    · exact .inr ⟨b, List.mem_cons_self, hp⟩
    · exact .inr ⟨b', List.mem_cons_of_mem _ hb', hp⟩

/-- A segment in which `b` is skipped. -/
theorem Segment.skip (hl : (l₁ ++ b :: l₂).Nodup) (h₁ : L.Segment a l₁ (some b))
    (h₂ : L.Segment (some b) l₂ c) (ha : ∀ x ∈ l₁ ++ b :: l₂, a ≠ some x)
    (hc : ∀ x ∈ l₁ ++ b :: l₂, c ≠ some x)
    (hnext : L'.next (L.prev (some b)) = L.next (some b))
    (hprev : L'.prev (L.next (some b)) = L.prev (some b))
    (hnext' : ∀ x, x ≠ L.prev (some b) → L'.next x = L.next x)
    (hprev' : ∀ x, x ≠ L.next (some b) → L'.prev x = L.prev x) : L'.Segment a (l₁ ++ l₂) c := by
  induction l₁ generalizing a with
  | nil =>
    obtain ⟨-, hpb⟩ := h₁
    rw [hpb] at hnext hprev hnext'
    cases l₂ with
    | nil =>
      obtain ⟨hnb, -⟩ := h₂
      rw [hnb] at hnext hprev
      exact ⟨hnext, hprev⟩
    | cons d l₂ =>
      obtain ⟨⟨hnb, -⟩, h₂⟩ := h₂
      rw [hnb] at hnext hprev hprev'
      rw [List.nil_append, List.nodup_cons, List.nodup_cons] at hl
      refine ⟨⟨hnext, hprev⟩, h₂.congr ?_ ?_ ?_ ?_⟩
      · exact hnext' _ (ha d (by simp)).symm
      · exact hprev' _ (hc d (by simp))
      · intro x hx
        exact hnext' _ (ha x (by simp [hx])).symm
      · intro x hx
        refine hprev' _ fun heq => hl.2.1 ?_
        rw [← Option.some.inj heq]
        exact hx
  | cons e l₁ ih =>
    obtain ⟨⟨hna, hpe⟩, h₁⟩ := h₁
    rw [List.cons_append, List.nodup_cons] at hl
    have hmem : ∀ x ∈ l₁ ++ b :: l₂, e ≠ x := by
      rintro x hx rfl
      exact hl.1 hx
    rw [List.cons_append, List.forall_mem_cons] at ha hc
    refine ⟨⟨?_, ?_⟩, ih hl.2 h₁ (fun x hx heq => hmem x hx (Option.some.inj heq)) hc.2⟩
    · refine (hnext' a ?_).trans hna
      -- the node before `b` is in the list, and `a` is not
      rcases h₁.prev_end with ⟨hp, -⟩ | ⟨x, hx, hp⟩
      · rw [hp]
        exact ha.1
      · rw [hp]
        exact ha.2 x (List.mem_append_left _ hx)
    · refine (hprev' (some e) ?_).trans hpe
      -- the node after `b` is the end, or comes after `e`
      cases l₂ with
      | nil =>
        rw [h₂.1]
        exact hc.1.symm
      | cons d l₂ =>
        rw [h₂.1.1]
        exact fun heq => hmem d (by simp) (Option.some.inj heq)

variable [DecidableEq α]

/-- `b->next->prev = b->prev; b->prev->next = b->next` -/
def unlink (b : α) (L : Links α) : Links α :=
  let prev := Function.update L.prev (L.next (some b)) (L.prev (some b))
  ⟨Function.update L.next (prev (some b)) (L.next (some b)), prev⟩

/-- `b->next = head->next; b->prev = head; head->next->prev = b; head->next = b` -/
def pushFront (b : α) (L : Links α) : Links α :=
  let next := Function.update L.next (some b) (L.next none)
  let prev := Function.update L.prev (some b) none
  let prev := Function.update prev (next none) (some b)
  ⟨Function.update next none (some b), prev⟩

theorem IsRing.unlink (h : L.IsRing (l₁ ++ b :: l₂)) : (L.unlink b).IsRing (l₁ ++ l₂) := by
  have hseg := segment_append.1 h.segment
  -- the second assignment reads `b->prev` after the first one
  have hself : L.next (some b) ≠ some b := by
    have hn := h.nodup
    rw [List.nodup_append, List.nodup_cons] at hn
    cases l₂ with
    | nil =>
      rw [hseg.2.1]
      exact fun heq => by cases heq
    | cons d l₂ =>
      rw [hseg.2.1.1]
      intro heq
      exact hn.2.1.1 (by rw [← Option.some.inj heq]; exact List.mem_cons_self)
  have hprev : (L.unlink b).prev = Function.update L.prev (L.next (some b)) (L.prev (some b)) := rfl
  have hnext : (L.unlink b).next = Function.update L.next (L.prev (some b)) (L.next (some b)) := by
    simp only [Links.unlink, Function.update_of_ne hself.symm]
  refine ⟨?_, ?_⟩
  · have hn := h.nodup
    rw [List.nodup_middle] at hn
    exact (List.nodup_cons.1 hn).2
  · refine Segment.skip (L := L) h.nodup hseg.1 hseg.2 (fun _ _ h => by cases h)
      (fun _ _ h => by cases h) ?_ ?_ ?_ ?_
    · rw [hnext, Function.update_self]
    · rw [hprev, Function.update_self]
    · intro x hx
      rw [hnext, Function.update_of_ne hx]
    · intro x hx
      rw [hprev, Function.update_of_ne hx]

theorem IsRing.pushFront (h : L.IsRing l) (hb : b ∉ l) : (L.pushFront b).IsRing (b :: l) := by
  have hne : ∀ x ∈ l, some x ≠ some b := by
    intro x hx heq
    exact hb (Option.some.inj heq ▸ hx)
  have hnext : ∀ x ∈ l, (L.pushFront b).next (some x) = L.next (some x) := by
    intro x hx
    simp only [Links.pushFront, Function.update_of_ne (Option.some_ne_none x),
      Function.update_of_ne (hne x hx)]
  have hhead : (L.pushFront b).next (some b) = L.next none := by
    simp [Links.pushFront]
  have hprev : (L.pushFront b).prev =
      Function.update (Function.update L.prev (some b) none) (L.next none) (some b) := by
    simp [Links.pushFront]
  refine ⟨List.nodup_cons.2 ⟨hb, h.nodup⟩, ?_⟩
  have hseg := h.segment
  cases l with
  | nil =>
    rw [Segment] at hseg
    rw [hseg.1] at hhead hprev
    refine ⟨⟨?_, ?_⟩, hhead, ?_⟩
    · simp [Links.pushFront]
    · rw [hprev, Function.update_of_ne (Option.some_ne_none b), Function.update_self]
    · rw [hprev, Function.update_self]
  | cons d l =>
    obtain ⟨⟨hnd, -⟩, hseg⟩ := hseg
    rw [hnd] at hhead hprev
    rw [List.forall_mem_cons] at hne hnext
    have hprev' : ∀ x, x ≠ some b → x ≠ some d → (L.pushFront b).prev x = L.prev x := by
      intro x hxb hxd
      rw [hprev, Function.update_of_ne hxd, Function.update_of_ne hxb]
    refine ⟨⟨?_, ?_⟩, ⟨hhead, ?_⟩, hseg.congr hnext.1 ?_ hnext.2 ?_⟩
    · simp [Links.pushFront]
    · rw [hprev, Function.update_of_ne hne.1.symm, Function.update_self]
    · rw [hprev, Function.update_self]
    · exact hprev' none (Option.some_ne_none b).symm (Option.some_ne_none d).symm
    · intro x hx
      refine hprev' _ (hne.2 x hx) fun heq => ?_
      exact (List.nodup_cons.1 h.nodup).1 (Option.some.inj heq ▸ hx)

/-! ## Loops -/

omit [DecidableEq α]

/-- The loop from the node `x` along `link` for the first element that is wanted; it ends at
    the head. -/
def search (link : Option α → Option α) (p : α → Bool) : ℕ → Option α → Option α
  | 0, _ => none
  | _ + 1, none => none
  | fuel + 1, some b => if p b then some b else search link p fuel (link (some b))

theorem Segment.search_next {p : α → Bool} {fuel : ℕ} (h : L.Segment a l none)
    (hf : l.length < fuel) : search L.next p fuel (L.next a) = l.find? p := by
  induction l generalizing a fuel with
  | nil =>
    obtain ⟨fuel, rfl⟩ : ∃ n, fuel = n + 1 := ⟨fuel - 1, by omega⟩
    rw [h.1]
    rfl
  | cons b l ih =>
    rw [List.length_cons] at hf
    obtain ⟨fuel, rfl⟩ : ∃ n, fuel = n + 1 := ⟨fuel - 1, by omega⟩
    rw [h.1.1, search, List.find?_cons, ih h.2 (by omega)]
    cases p b <;> rfl

theorem IsRing.search_next {p : α → Bool} {fuel : ℕ} (h : L.IsRing l) (hf : l.length < fuel) :
    search L.next p fuel (L.next none) = l.find? p :=
  h.segment.search_next hf

theorem Segment.search_prev {p : α → Bool} {fuel : ℕ} (h : L.Segment none l c)
    (hf : l.length < fuel) : search L.prev p fuel (L.prev c) = l.reverse.find? p := by
  induction l using List.reverseRecOn generalizing c fuel with
  | nil =>
    obtain ⟨fuel, rfl⟩ : ∃ n, fuel = n + 1 := ⟨fuel - 1, by omega⟩
    rw [h.2]
    rfl
  | append_singleton l b ih =>
    rw [List.length_append, List.length_singleton] at hf
    obtain ⟨fuel, rfl⟩ : ∃ n, fuel = n + 1 := ⟨fuel - 1, by omega⟩
    obtain ⟨h₁, h₂⟩ := segment_append.1 h
    rw [h₂.2, search, ih h₁ (by omega), List.reverse_append, List.reverse_singleton,
      List.singleton_append, List.find?_cons]
    cases p b <;> rfl

theorem IsRing.search_prev {p : α → Bool} {fuel : ℕ} (h : L.IsRing l) (hf : l.length < fuel) :
    search L.prev p fuel (L.prev none) = l.reverse.find? p :=
  h.segment.search_prev hf

end Links

end Lib
