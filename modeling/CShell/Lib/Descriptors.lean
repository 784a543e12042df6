/-
  Descriptor tables.

  A table lists, for each descriptor number, what is open there.  `alloc` opens
  at the lowest free number, `close` frees a number, `dup2` copies one entry
  over another.  The lemmas say where an object can be found after each of
  them; nothing here depends on what the objects are.

  `Holds base held t` accounts for a table: it is `base` with the numbers
  `held` open as well, each once.
-/
import Mathlib.Data.List.Basic
import Mathlib.Data.List.Perm.Basic

namespace Lib

variable {α : Type}

/-- A descriptor table: what is open at each number. -/
abbrev Fds (α : Type) := List (Option α)

namespace Fds

/-- `a` is open at the number `n`. -/
def At (t : Fds α) (n : ℕ) (a : α) : Prop := t[n]? = some (some a)

/-- The lowest free number. -/
def lowest : Fds α → ℕ
  | [] => 0
  | none :: _ => 0
  | some _ :: t => lowest t + 1

/-- Put `a` at the number `n`. -/
def put (n : ℕ) (a : α) (t : Fds α) : Fds α :=
  if n < t.length then t.set n (some a) else t ++ [some a]

/-- Open at the lowest free number. -/
def alloc (a : α) (t : Fds α) : ℕ × Fds α := (t.lowest, t.put t.lowest a)

/-- `close(n)`. -/
def close (n : ℕ) (t : Fds α) : Fds α := t.set n none

/-- `close` of several numbers, one after the other. -/
def closeAll (ns : List ℕ) (t : Fds α) : Fds α := ns.foldl (fun t n => t.close n) t

/-- `b` becomes a copy of `a`; without an open `a` the call fails. -/
def dup2 (a b : ℕ) (t : Fds α) : Option (Fds α) :=
  match t[a]? with
  | some (some o) => some (t.set b (some o))
  | _ => none

/-- What is open in `t` is open at the same number in `t'`. -/
def Le (t t' : Fds α) : Prop := ∀ n a, t.At n a → t'.At n a

theorem Le.refl (t : Fds α) : t.Le t := fun _ _ h => h

theorem Le.trans {t t' t'' : Fds α} (h : t.Le t') (h' : t'.Le t'') : t.Le t'' :=
  fun n a ha => h' n a (h n a ha)

variable {t : Fds α} {a b o : α} {m n : ℕ}

theorem At.unique (h : t.At n a) (h' : t.At n b) : a = b :=
  Option.some.inj (Option.some.inj (h.symm.trans h'))

theorem lowest_le (t : Fds α) : t.lowest ≤ t.length := by
  induction t with
  | nil => exact Nat.le_refl _
  | cons x t ih =>
    cases x with
    | none => exact Nat.zero_le _
    | some x => exact Nat.succ_le_succ ih

/-- Nothing is open at the lowest free number. -/
theorem not_at_lowest (t : Fds α) (b : α) : ¬t.At t.lowest b := by
  induction t with
  | nil => nofun
  | cons x t ih =>
    cases x with
    | none => nofun
    | some x => exact ih

theorem at_put (hn : n ≤ t.length) :
    (t.put n a).At m b ↔ (m = n ∧ b = a) ∨ (m ≠ n ∧ t.At m b) := by
  rw [put, At, At]
  rcases Nat.lt_or_eq_of_le hn with hlt | rfl
  · rw [if_pos hlt]
    by_cases hm : m = n
    · subst hm
      simp [List.getElem?_set_self hlt, eq_comm]
    · simp [List.getElem?_set_ne (Ne.symm hm), hm]
  · rw [if_neg (Nat.lt_irrefl _)]
    rcases Nat.lt_trichotomy m t.length with hm | rfl | hm
    · simp [List.getElem?_append_left hm, Nat.ne_of_lt hm]
    · simp [eq_comm]
    · have h₁ : (t ++ [some a])[m]? = none := List.getElem?_eq_none (by simp; omega)
      have h₂ : t[m]? = none := List.getElem?_eq_none (by omega)
      simp [h₁, h₂, Nat.ne_of_gt hm]

theorem at_alloc (t : Fds α) : (t.alloc a).2.At m b ↔ (m = (t.alloc a).1 ∧ b = a) ∨ t.At m b := by
  rw [alloc, at_put t.lowest_le]
  refine or_congr_right ⟨fun h => h.2, fun h => ⟨?_, h⟩⟩
  rintro rfl
  exact not_at_lowest t b h

theorem alloc_at (t : Fds α) (a : α) : (t.alloc a).2.At (t.alloc a).1 a :=
  (at_alloc t).2 (.inl ⟨rfl, rfl⟩)

theorem le_alloc (t : Fds α) (a : α) : t.Le (t.alloc a).2 :=
  fun _ _ h => (at_alloc t).2 (.inr h)

theorem at_close (t : Fds α) : (t.close n).At m b ↔ m ≠ n ∧ t.At m b := by
  rw [close, At, At]
  by_cases hm : m = n
  · subst hm
    simp [List.getElem?_set]
  · simp [List.getElem?_set_ne (Ne.symm hm), hm]

theorem at_closeAll (t : Fds α) (ns : List ℕ) : (t.closeAll ns).At m b ↔ m ∉ ns ∧ t.At m b := by
  induction ns generalizing t with
  | nil => simp [closeAll]
  | cons n ns ih =>
    rw [closeAll, List.foldl_cons, ← closeAll, ih, at_close, List.mem_cons, not_or, and_left_comm,
      and_assoc]

/-- Closing numbers that are free in `t` leaves `t` as it is. -/
theorem Le.closeAll {t' : Fds α} {ns : List ℕ} (h : t.Le t') (hn : ∀ n ∈ ns, ∀ a, ¬t.At n a) :
    t.Le (t'.closeAll ns) := fun n a ha =>
  (at_closeAll t' ns).2 ⟨fun hmem => hn n hmem a ha, h n a ha⟩

/-- After `dup2` an object is where it was, or it is the one copied. -/
theorem at_of_dup2 {t' : Fds α} (h : t.dup2 m n = some t') {i : ℕ} (hi : t'.At i o) :
    (i = n ∧ t.At m o) ∨ (i ≠ n ∧ t.At i o) := by
  rw [dup2] at h
  split at h
  · rename_i x hx
    cases h
    by_cases hin : i = n
    · subst hin
      rw [At, List.getElem?_set_self'] at hi
      obtain ⟨y, -, hio⟩ := Option.map_eq_some_iff.1 hi
      obtain rfl : x = o := Option.some.inj hio
      exact .inl ⟨rfl, hx⟩
    · rw [At, List.getElem?_set_ne (Ne.symm hin)] at hi
      exact .inr ⟨hin, hi⟩
  · cases h

/-- `dup2` of an open number over an open number. -/
theorem dup2_at (ha : t.At m a) (hb : t.At n b) :
    ∃ t', t.dup2 m n = some t' ∧
      ∀ i o, t'.At i o ↔ (i = n ∧ o = a) ∨ (i ≠ n ∧ t.At i o) := by
  have hn : n < t.length := by
    by_contra hn
    rw [At, List.getElem?_eq_none (Nat.le_of_not_lt hn)] at hb
    cases hb
  refine ⟨t.set n (some a), ?_, ?_⟩
  · rw [dup2, show t[m]? = some (some a) from ha]
  · intro i o
    by_cases hi : i = n
    · subst hi
      simp [At, hn, eq_comm]
    · simp [At, List.getElem?_set_ne (Ne.symm hi), hi]

/-! ## Accounting -/

/-- The table is `base`, and has the numbers `held` open as well. -/
structure Holds (base : Fds α) (held : List ℕ) (t : Fds α) : Prop where
  nodup : held.Nodup
  free : ∀ n ∈ held, ∀ a, ¬base.At n a
  isOpen : ∀ n ∈ held, ∃ a, t.At n a
  rest : ∀ n a, n ∉ held → (t.At n a ↔ base.At n a)

namespace Holds

variable {base : Fds α} {held held' : List ℕ}

theorem refl (t : Fds α) : Holds t [] t := ⟨.nil, nofun, nofun, fun _ _ _ => Iff.rfl⟩

theorem perm (h : Holds base held t) (hp : held.Perm held') : Holds base held' t :=
  ⟨hp.nodup_iff.1 h.nodup, fun n hn => h.free n (hp.mem_iff.2 hn),
    fun n hn => h.isOpen n (hp.mem_iff.2 hn), fun n a hn => h.rest n a fun hm => hn (hp.mem_iff.1 hm)⟩

/-- A new number is neither held nor in the base. -/
theorem not_mem_alloc (h : Holds base held t) (a : α) : (t.alloc a).1 ∉ held := by
  intro hmem
  obtain ⟨b, hb⟩ := h.isOpen _ hmem
  exact not_at_lowest t b hb

theorem alloc (h : Holds base held t) (a : α) :
    Holds base ((t.alloc a).1 :: held) (t.alloc a).2 := by
  have hnew := h.not_mem_alloc a
  refine ⟨List.nodup_cons.2 ⟨hnew, h.nodup⟩, ?_, ?_, fun n b hn => ?_⟩
  · rw [List.forall_mem_cons]
    refine ⟨fun b hb => not_at_lowest t b ((h.rest _ b hnew).2 hb), h.free⟩
  · rw [List.forall_mem_cons]
    refine ⟨⟨a, alloc_at t a⟩, fun n hn => ?_⟩
    obtain ⟨b, hb⟩ := h.isOpen n hn
    exact ⟨b, le_alloc t a n b hb⟩
  · rw [List.mem_cons, not_or] at hn
    rw [at_alloc, ← h.rest n b hn.2]
    exact or_iff_right fun heq => hn.1 heq.1

theorem close (h : Holds base (n :: held) t) : Holds base held (t.close n) := by
  have hn := List.nodup_cons.1 h.nodup
  refine ⟨hn.2, fun m hm => h.free m (.tail _ hm), fun m hm => ?_, fun m b hm => ?_⟩
  · obtain ⟨b, hb⟩ := h.isOpen m (.tail _ hm)
    refine ⟨b, (at_close t).2 ⟨?_, hb⟩⟩
    rintro rfl
    exact hn.1 hm
  · rw [at_close]
    by_cases hmn : m = n
    · subst hmn
      exact iff_of_false (fun hb => hb.1 rfl) (h.free m (.head _) b)
    · rw [← h.rest m b fun hmem => (List.mem_cons.1 hmem).elim hmn hm]
      exact and_iff_right hmn

end Holds

end Fds

end Lib
