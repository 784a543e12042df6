/-
  Ring buffers whose counters run on and wrap.

  `nread` and `nwrite` count the elements taken out and put in, modulo 2 ^ 32, and
  the element of number `n` is in the cell `n % N`.  As long as `N` divides the
  modulus the cells go on where they were when a counter wraps, and as long as at
  most `N` elements are in the buffer the difference of the counters says how many.

  * `full_iff`, `empty_iff`: the tests on the counters;
  * `contents_push`, `contents_pop`: the buffer is a queue;
  * `contents_unpush`: from which the last element can be taken back.
-/
import Mathlib.Algebra.GroupWithZero.Nat
import Mathlib.Data.List.Basic
import Mathlib.Logic.Function.Basic

namespace Lib

/-- A ring buffer with 32-bit counters of what has been read and written. -/
structure Ring (α : Type) (N : ℕ) where
  data : Fin N → α
  nread : UInt32
  nwrite : UInt32

namespace Ring

variable {α : Type} {N : ℕ} [NeZero N]

/-- The cell of the element of number `n`. -/
def cell (n : UInt32) : Fin N := Fin.ofNat N n.toNat

/-- Put in an element. -/
def push (r : Ring α N) (x : α) : Ring α N :=
  { r with data := Function.update r.data (cell r.nwrite) x, nwrite := r.nwrite + 1 }

/-- The next element to come out. -/
def front (r : Ring α N) : α := r.data (cell r.nread)

/-- Take out an element. -/
def pop (r : Ring α N) : Ring α N := { r with nread := r.nread + 1 }

/-- The element put in last. -/
def back (r : Ring α N) : α := r.data (cell (r.nwrite - 1))

/-- The element put in last is taken back. -/
def unpush (r : Ring α N) : Ring α N := { r with nwrite := r.nwrite - 1 }

/-- The number of elements in the buffer. -/
def size (r : Ring α N) : ℕ := (r.nwrite - r.nread).toNat

/-- The elements in the buffer, the oldest first. -/
def contents (r : Ring α N) : List α :=
  (List.range r.size).map fun k => r.data (cell (r.nread + UInt32.ofNat k))

variable {r : Ring α N}

/-! ## The counters -/

section
omit [NeZero N]

theorem size_eq : r.size = (2 ^ 32 - r.nread.toNat + r.nwrite.toNat) % 2 ^ 32 :=
  UInt32.toNat_sub ..

theorem nwrite_eq : r.nwrite = r.nread + UInt32.ofNat r.size := by
  rw [size, UInt32.ofNat_toNat, UInt32.add_comm, UInt32.sub_add_cancel]

theorem empty_iff : r.nread = r.nwrite ↔ r.size = 0 := by
  have hr := r.nread.toNat_lt
  have hw := r.nwrite.toNat_lt
  rw [← UInt32.toNat_inj, size_eq]
  omega

theorem full_iff (hN : N < 2 ^ 32) : r.nwrite = r.nread + UInt32.ofNat N ↔ r.size = N := by
  have hr := r.nread.toNat_lt
  have hw := r.nwrite.toNat_lt
  rw [← UInt32.toNat_inj, size_eq, UInt32.toNat_add, UInt32.toNat_ofNat', Nat.mod_eq_of_lt hN]
  omega

end

theorem size_push (x : α) (h : r.size + 1 < 2 ^ 32) : (r.push x).size = r.size + 1 := by
  have hr := r.nread.toNat_lt
  have hw := r.nwrite.toNat_lt
  have hone : (1 : UInt32).toNat = 1 := rfl
  rw [size_eq] at h ⊢
  rw [size_eq]
  simp only [push, UInt32.toNat_add, hone]
  omega

omit [NeZero N] in
theorem size_pop (h : 0 < r.size) : r.pop.size + 1 = r.size := by
  have hr := r.nread.toNat_lt
  have hw := r.nwrite.toNat_lt
  have hone : (1 : UInt32).toNat = 1 := rfl
  rw [size_eq] at h ⊢
  rw [size_eq]
  simp only [pop, UInt32.toNat_add, hone]
  omega

omit [NeZero N] in
theorem size_unpush (h : 0 < r.size) : r.unpush.size + 1 = r.size := by
  have hr := r.nread.toNat_lt
  have hw := r.nwrite.toNat_lt
  have hone : (1 : UInt32).toNat = 1 := rfl
  rw [size_eq] at h ⊢
  rw [size_eq]
  simp only [unpush, UInt32.toNat_sub, hone]
  omega

/-! ## The buffer as a queue -/

theorem contents_length : r.contents.length = r.size := by
  simp [contents]

theorem cell_add (hN : N ∣ 2 ^ 32) (n : UInt32) (k : ℕ) :
    (cell (n + UInt32.ofNat k) : Fin N).val = (n.toNat + k) % N := by
  show (n + UInt32.ofNat k).toNat % N = _
  rw [UInt32.toNat_add, UInt32.toNat_ofNat', Nat.mod_mod_of_dvd _ hN, Nat.add_mod,
    Nat.mod_mod_of_dvd _ hN, ← Nat.add_mod]

/-- Fewer than `N` apart, two elements are in different cells. -/
theorem cell_add_ne (hN : N ∣ 2 ^ 32) (n : UInt32) {k m : ℕ} (hkm : k < m) (hm : m < N + k) :
    (cell (n + UInt32.ofNat k) : Fin N) ≠ cell (n + UInt32.ofNat m) := by
  intro h
  have h : (n.toNat + k) % N = (n.toNat + m) % N := by
    rw [← cell_add hN, ← cell_add hN, h]
  have hdvd : N ∣ (n.toNat + m) - (n.toNat + k) :=
    Nat.dvd_of_mod_eq_zero (Nat.sub_mod_eq_zero_of_mod_eq h.symm)
  have := Nat.le_of_dvd (by omega) hdvd
  omega

/-- **Putting an element in** appends it. -/
theorem contents_push (hN : N ∣ 2 ^ 32) (h : r.size < N) (h' : r.size + 1 < 2 ^ 32) (x : α) :
    (r.push x).contents = r.contents ++ [x] := by
  rw [contents, size_push x h', List.range_succ, List.map_append, List.map_singleton, contents]
  congr 1
  · refine List.map_congr_left ?_
    intro k hk
    have hk := List.mem_range.1 hk
    simp only [push]
    rw [nwrite_eq]
    exact Function.update_of_ne (cell_add_ne hN r.nread hk (by omega)) _ _
  · simp only [push]
    rw [← nwrite_eq, Function.update_self]

/-- **Taking an element out** takes the oldest. -/
theorem contents_pop (h : 0 < r.size) : r.contents = r.front :: r.pop.contents := by
  rw [contents, ← size_pop h, List.range_succ_eq_map, List.map_cons, List.map_map]
  congr 1
  · rw [front]
    simp
  · rw [contents]
    refine List.map_congr_left ?_
    intro k _
    simp only [Function.comp, pop]
    congr 2
    rw [Nat.succ_eq_add_one, UInt32.ofNat_add, UInt32.add_comm (UInt32.ofNat k), UInt32.add_assoc]
    rfl

/-- **Taking the last element back.** -/
theorem contents_unpush (h : 0 < r.size) : r.contents = r.unpush.contents ++ [r.back] := by
  rw [contents, ← size_unpush h, List.range_succ, List.map_append, List.map_singleton, contents]
  have hlast : r.nwrite - 1 = r.nread + UInt32.ofNat r.unpush.size := r.unpush.nwrite_eq
  rw [back, hlast]
  rfl

end Ring

end Lib
