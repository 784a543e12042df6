/-
  Path names and the files they lead to.

  A path is gone through component by component, from the root if it starts
  with a slash and from the current directory otherwise.  Empty components and
  `.` stay where they are; everything else, with `..`, symbolic links and
  permissions, is in `lookup`.

  * `denotes_append`: a path behind a slash goes on where the path before it
    leads.
-/
import Mathlib.Data.List.Basic
import Mathlib.Data.Nat.Notation

namespace Lib

/-- The byte between the components of a path. -/
def slash : UInt8 := 47

/-- The components of a path that lead anywhere. -/
def components (p : List UInt8) : List (List UInt8) :=
  (p.splitOnP (· = slash)).filter fun c => c ≠ [] ∧ c ≠ [46]

theorem components_append (d p : List UInt8) :
    components (d ++ slash :: p) = components d ++ components p := by
  rw [components, List.splitOnP_append_cons _ _ (by simp), List.filter_append]
  rfl

/-- Directories and files, and what a name in a directory leads to. -/
structure Files where
  node : Type
  root : node
  cwd : node
  lookup : node → List UInt8 → Option node

namespace Files

variable (fs : Files)

/-- Where components lead from a directory. -/
def walk (d : fs.node) (cs : List (List UInt8)) : Option fs.node := cs.foldlM fs.lookup d

theorem walk_append (d : fs.node) (cs cs' : List (List UInt8)) :
    fs.walk d (cs ++ cs') = (fs.walk d cs).bind fun e => fs.walk e cs' :=
  List.foldlM_append

theorem walk_of_stays {d : fs.node} {cs : List (List UInt8)}
    (h : ∀ c ∈ cs, fs.lookup d c = some d) : fs.walk d cs = some d := by
  induction cs with
  | nil => rfl
  | cons c cs ih =>
    rw [List.forall_mem_cons] at h
    rw [walk, List.foldlM_cons, h.1]
    exact ih h.2

/-- What a path leads to. -/
def denotes (p : List UInt8) : Option fs.node :=
  fs.walk (if p.head? = some slash then fs.root else fs.cwd) (components p)

theorem denotes_of_relative {p : List UInt8} (h : p.head? ≠ some slash) :
    fs.denotes p = fs.walk fs.cwd (components p) := by
  rw [denotes, if_neg h]

/-- **A path behind a directory.** -/
theorem denotes_append {d : List UInt8} (hd : d ≠ []) (p : List UInt8) :
    fs.denotes (d ++ slash :: p) = (fs.denotes d).bind fun e => fs.walk e (components p) := by
  obtain ⟨b, d, rfl⟩ := List.exists_cons_of_ne_nil hd
  rw [denotes, components_append, walk_append]
  rfl

end Files

end Lib
