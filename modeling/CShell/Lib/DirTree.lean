/-
  Directory trees.

  A `DirTree` is the content of a directory: its entries in some order, each a
  file or a directory with its own content.  Names are of any type; an entry is
  known by the names on the way to it.

  * `mem_preorder_iff`, `nodup_preorder`: the pre-order traversal has each entry
    of the tree once;
  * `preorder_prune`: leaving out entries by their names, with all below them,
    leaves the paths without such names.
-/
import Mathlib.Order.Lattice
import Mathlib.Data.List.Nodup
import Mathlib.Data.Nat.Notation

namespace Lib

/-- The content of a directory. -/
inductive DirTree (ν : Type) where
  | nil
  | file (name : ν) (rest : DirTree ν)
  | dir (name : ν) (sub rest : DirTree ν)

namespace DirTree

variable {ν : Type} {r : ν → ν → Prop} {t : DirTree ν}

/-- The names in a directory, in their order. -/
def names : DirTree ν → List ν
  | nil => []
  | file n rest | dir n _ rest => n :: rest.names

/-- How deep its directories are nested. -/
def height : DirTree ν → ℕ
  | nil => 0
  | file _ rest => rest.height
  | dir _ sub rest => max (sub.height + 1) rest.height

/-- An entry of the directory `n`, seen from the one that has `n`. -/
def under (n : ν) (e : List ν × Bool) : List ν × Bool := (n :: e.1, e.2)

/-- The entries in pre-order, with the names that lead to them and whether they
    are directories. -/
def preorder : DirTree ν → List (List ν × Bool)
  | nil => []
  | file n rest => ([n], false) :: rest.preorder
  | dir n sub rest => ([n], true) :: (sub.preorder.map (under n) ++ rest.preorder)

/-- What these names lead to: whether it is a directory. -/
def find [DecidableEq ν] : DirTree ν → List ν → Option Bool
  | nil, _ => none
  | _, [] => none
  | file n rest, m :: p =>
    if m = n then if p = [] then some false else none else rest.find (m :: p)
  | dir n sub rest, m :: p =>
    if m = n then if p = [] then some true else sub.find p else rest.find (m :: p)

/-- The names in each directory are in order. -/
def Ordered (r : ν → ν → Prop) : DirTree ν → Prop
  | nil => True
  | file n rest => (∀ m ∈ rest.names, r n m) ∧ rest.Ordered r
  | dir n sub rest => (∀ m ∈ rest.names, r n m) ∧ sub.Ordered r ∧ rest.Ordered r

theorem under_injective (n : ν) : Function.Injective (under n) := by
  rintro ⟨p, k⟩ ⟨q, l⟩ h
  cases h
  rfl

theorem Ordered.pairwise (h : t.Ordered r) : t.names.Pairwise r := by
  induction t with
  | nil => exact List.Pairwise.nil
  | file n rest ih => exact List.Pairwise.cons h.1 (ih h.2)
  | dir n sub rest _ ih => exact List.Pairwise.cons h.1 (ih h.2.2)

/-! ## The traversal -/

/-- A path starts with a name of the directory. -/
theorem exists_of_mem_preorder {e : List ν × Bool} (h : e ∈ t.preorder) :
    ∃ n p, e.1 = n :: p ∧ n ∈ t.names := by
  induction t generalizing e with
  | nil => cases h
  | file n rest ih =>
    rcases List.mem_cons.1 h with rfl | h
    · exact ⟨n, [], rfl, List.mem_cons_self⟩
    · obtain ⟨m, p, he, hm⟩ := ih h
      exact ⟨m, p, he, List.mem_cons_of_mem _ hm⟩
  | dir n sub rest _ ih =>
    rcases List.mem_cons.1 h with rfl | h
    · exact ⟨n, [], rfl, List.mem_cons_self⟩
    rcases List.mem_append.1 h with h | h
    · obtain ⟨e', -, rfl⟩ := List.mem_map.1 h
      exact ⟨n, e'.1, rfl, List.mem_cons_self⟩
    · obtain ⟨m, p, he, hm⟩ := ih h
      exact ⟨m, p, he, List.mem_cons_of_mem _ hm⟩

theorem ne_nil_of_mem_preorder {e : List ν × Bool} (h : e ∈ t.preorder) : e.1 ≠ [] := by
  obtain ⟨n, p, he, -⟩ := exists_of_mem_preorder h
  rw [he]
  exact List.cons_ne_nil n p

/-- A path that starts with `n` is not among those of the entries after `n`. -/
theorem notMem_preorder_of_names {n : ν} {p : List ν} {k : Bool} (hr : ∀ n, ¬r n n)
    (h : ∀ m ∈ t.names, r n m) : (n :: p, k) ∉ t.preorder := by
  intro hmem
  obtain ⟨m, q, he, hm⟩ := exists_of_mem_preorder hmem
  cases he
  exact hr n (h n hm)

section
variable [DecidableEq ν]

theorem find_nil (t : DirTree ν) : t.find [] = none := by
  cases t <;> rfl

/-- **All entries.** -/
theorem mem_preorder_iff (hr : ∀ n, ¬r n n) (h : t.Ordered r) (p : List ν) (k : Bool) :
    (p, k) ∈ t.preorder ↔ t.find p = some k := by
  induction t generalizing p with
  | nil => simp [preorder, find]
  | file n rest ih =>
    rcases p with _ | ⟨m, p⟩
    · simp [preorder, find, ih h.2, find_nil]
    · rw [preorder, List.mem_cons, find]
      by_cases hm : m = n
      · subst hm
        have hrest : (m :: p, k) ∉ rest.preorder := notMem_preorder_of_names hr h.1
        rw [or_iff_left hrest, if_pos rfl]
        by_cases hp : p = []
        · simp [hp, eq_comm]
        · simp [hp]
      · rw [if_neg hm, ← ih h.2]
        simp [hm]
  | dir n sub rest ihsub ih =>
    rcases p with _ | ⟨m, p⟩
    · simp [preorder, find, ih h.2.2, find_nil, under]
    · rw [preorder, List.mem_cons, List.mem_append, find]
      by_cases hm : m = n
      · subst hm
        have hrest : (m :: p, k) ∉ rest.preorder := notMem_preorder_of_names hr h.1
        have hsub : (m :: p, k) ∈ sub.preorder.map (under m) ↔ sub.find p = some k := by
          rw [← ihsub h.2.1]
          exact List.mem_map_of_injective (under_injective m) (a := (p, k))
        rw [or_iff_left hrest, hsub, if_pos rfl]
        by_cases hp : p = []
        · simp [hp, find_nil, eq_comm]
        · simp [hp]
      · rw [if_neg hm, ← ih h.2.2]
        simp [hm, under, Ne.symm hm]

end

/-- **No entry twice.** -/
theorem nodup_preorder (hr : ∀ n, ¬r n n) (h : t.Ordered r) : t.preorder.Nodup := by
  induction t with
  | nil => exact List.nodup_nil
  | file n rest ih => exact List.nodup_cons.2 ⟨notMem_preorder_of_names hr h.1, ih h.2⟩
  | dir n sub rest ihsub ih =>
    have hself : ([n], true) ∉ sub.preorder.map (under n) ++ rest.preorder := by
      intro hmem
      rcases List.mem_append.1 hmem with hmem | hmem
      · obtain ⟨e, he, heq⟩ := List.mem_map.1 hmem
        exact ne_nil_of_mem_preorder he (List.cons.inj (Prod.mk.inj heq).1).2
      · exact notMem_preorder_of_names hr h.1 hmem
    have hsub : (sub.preorder.map (under n)).Nodup :=
      List.Nodup.map (under_injective n) (ihsub h.2.1)
    refine List.nodup_cons.2 ⟨hself, List.nodup_append.2 ⟨hsub, ih h.2.2, ?_⟩⟩
    intro e he e' he' heq
    obtain ⟨s, -, rfl⟩ := List.mem_map.1 he
    subst heq
    exact notMem_preorder_of_names hr h.1 he'

/-! ## Leaving out entries -/

/-- The tree without the entries that are not to be kept, and all below them. -/
def prune (keep : ν → Bool) : DirTree ν → DirTree ν
  | nil => nil
  | file n rest => if keep n then file n (rest.prune keep) else rest.prune keep
  | dir n sub rest =>
    if keep n then dir n (sub.prune keep) (rest.prune keep) else rest.prune keep

theorem names_prune (keep : ν → Bool) (t : DirTree ν) :
    (t.prune keep).names = t.names.filter keep := by
  induction t with
  | nil => rfl
  | file n rest ih =>
    rw [prune, names, List.filter_cons, ← ih]
    split <;> rfl
  | dir n sub rest _ ih =>
    rw [prune, names, List.filter_cons, ← ih]
    split <;> rfl

theorem preorder_prune (keep : ν → Bool) (t : DirTree ν) :
    (t.prune keep).preorder = t.preorder.filter fun e => e.1.all keep := by
  induction t with
  | nil => rfl
  | file n rest ih =>
    rw [prune, preorder, List.filter_cons, ← ih]
    cases hn : keep n with
    | true => simp [hn, preorder]
    | false => simp [hn]
  | dir n sub rest ihsub ih =>
    have hunder : ∀ e : List ν × Bool, (under n e).1.all keep = (keep n && e.1.all keep) := by
      intro e
      rw [under, List.all_cons]
    rw [prune, preorder, List.filter_cons, List.filter_append, List.filter_map, ← ih]
    cases hn : keep n with
    | true => simp [hn, preorder, Function.comp_def, hunder, ihsub]
    | false => simp [hn, Function.comp_def, hunder]

end DirTree

end Lib
