/-
  Reference counts.

  Each of finitely many holders refers to an object or to none; `refs` counts the holders
  of an object.

  * `refs_update`: how the counts change when a holder lets go of one object and takes
    another;
  * `refs_eq_zero`: an object of count 0 has no holder.
-/
import Mathlib.Data.Fintype.Basic
import Mathlib.Data.Finset.Card
import Mathlib.Logic.Function.Basic

namespace Lib

variable {H O : Type} [DecidableEq O]

/-- How many holders hold the object. -/
def refs [Fintype H] (f : H → Option O) (o : O) : ℕ := (Finset.univ.filter fun h => f h = some o).card

/-- What one holder counts for. -/
def counts (v : Option O) (o : O) : ℕ := if v = some o then 1 else 0

@[simp]
theorem counts_none (o : O) : counts none o = 0 := rfl

@[simp]
theorem counts_self (o : O) : counts (some o) o = 1 := if_pos rfl

theorem counts_of_ne {o o' : O} (h : o' ≠ o) : counts (some o) o' = 0 :=
  if_neg fun heq => h (Option.some.inj heq).symm

variable [Fintype H] {f : H → Option O} {h : H} {o : O}

theorem refs_eq_zero : refs f o = 0 ↔ ∀ h, f h ≠ some o := by
  rw [refs, Finset.card_eq_zero, Finset.filter_eq_empty_iff]
  constructor
  · intro hall h
    exact hall (Finset.mem_univ h)
  · intro hall h _
    exact hall h

theorem refs_pos (hf : f h = some o) : 0 < refs f o := by
  rw [Nat.pos_iff_ne_zero, Ne, refs_eq_zero]
  exact fun hall => hall h hf

/-- The holder `h` goes over to `v`. -/
theorem refs_update [DecidableEq H] (f : H → Option O) (h : H) (v : Option O) (o : O) :
    refs (Function.update f h v) o + counts (f h) o = refs f o + counts v o := by
  -- the holders other than `h` are the same before and after
  have hsplit : ∀ g : H → Option O, refs g o =
      ((Finset.univ.erase h).filter fun u => g u = some o).card + counts (g h) o := by
    intro g
    rw [refs, counts, ← Finset.insert_erase (Finset.mem_univ h), Finset.filter_insert]
    split
    case isTrue =>
      rw [Finset.card_insert_of_notMem (by simp), Finset.erase_insert_eq_erase]
      simp
    case isFalse => simp
  have hsame : ((Finset.univ.erase h).filter fun u => Function.update f h v u = some o) =
      (Finset.univ.erase h).filter fun u => f u = some o := by
    refine Finset.filter_congr fun u hu => ?_
    rw [Function.update_of_ne (Finset.ne_of_mem_erase hu)]
  rw [hsplit (Function.update f h v), hsplit f, hsame, Function.update_self]
  omega

end Lib
