/-
  Redo logs.

  The disk has a header, which lists block numbers, a log block for each of them, and the
  home blocks.  `view` is what the home blocks are once the blocks in the log are copied to
  their places; writing log blocks while the header is empty does not change it, writing
  the header changes it all at once, and copying and erasing the header do not.

  * `view_commit`: the write of the header;
  * `Recovery.view_eq`: recovery, started over after any number of crashes, leaves the view
    as it is, and makes it the contents of the home blocks.
-/
import CShell.Lib.Steps
import Mathlib.Data.List.Nodup
import Mathlib.Logic.Function.Basic

namespace Lib

/-- The disk: the header of the log, the blocks in the log, and all blocks in their places. -/
structure LogDisk (B D : Type) where
  head : List B
  logged : ℕ → D
  home : B → D

variable {B D : Type} [DecidableEq B]

namespace LogDisk

variable {d : LogDisk B D}

/-- The blocks, with the log installed. -/
def view (d : LogDisk B D) (b : B) : D :=
  if b ∈ d.head then d.logged (d.head.idxOf b) else d.home b

/-- The block at position `tail` of the log is copied to its place. -/
def install (b : B) (tail : ℕ) (d : LogDisk B D) : LogDisk B D :=
  { d with home := Function.update d.home b (d.logged tail) }

theorem view_of_head_nil (h : d.head = []) : d.view = d.home := by
  ext b
  simp [view, h]

/-- Log blocks are free as long as the header is empty. -/
theorem view_log (h : d.head = []) (logged : ℕ → D) : view { d with logged := logged } = d.view := by
  ext b
  simp [view, h]

/-- **The commit**: the header is written. -/
theorem view_commit {head : List B} {mem : B → D}
    (hlog : ∀ i b, head[i]? = some b → d.logged i = mem b) (hhome : ∀ b ∉ head, d.home b = mem b) :
    view { d with head := head } = mem := by
  ext b
  by_cases hb : b ∈ head
  · have hi : head[head.idxOf b]? = some b := by
      rw [List.getElem?_eq_getElem (List.idxOf_lt_length_iff.2 hb), List.getElem_idxOf]
    simp only [view, if_pos hb]
    exact hlog _ _ hi
  · simp only [view, if_neg hb]
    exact hhome b hb

theorem view_install {b : B} (hb : b ∈ d.head) (tail : ℕ) : (d.install b tail).view = d.view := by
  ext b'
  by_cases hb' : b' ∈ d.head
  · simp [view, install, hb']
  · have hne : b' ≠ b := fun h => hb' (h ▸ hb)
    simp [view, install, hb', hne]

/-- The header is erased when all blocks are copied. -/
theorem view_erase (h : ∀ b ∈ d.head, d.home b = d.logged (d.head.idxOf b)) :
    view { d with head := [] } = d.view := by
  ext b
  by_cases hb : b ∈ d.head
  · simp [view, hb, h b hb]
  · simp [view, hb]

/-- The first `tail` blocks are copied. -/
def Installed (tail : ℕ) (d : LogDisk B D) : Prop :=
  ∀ i < tail, ∀ b, d.head[i]? = some b → d.home b = d.logged i

omit [DecidableEq B] in
theorem installed_zero (d : LogDisk B D) : d.Installed 0 := fun _ hi => absurd hi (Nat.not_lt_zero _)

theorem Installed.install {b : B} {tail : ℕ} (h : d.Installed tail) (hn : d.head.Nodup)
    (hb : d.head[tail]? = some b) : (d.install b tail).Installed (tail + 1) := by
  intro i hi b' hb'
  have hb' : d.head[i]? = some b' := hb'
  rcases Nat.lt_succ_iff_lt_or_eq.1 hi with hlt | rfl
  · have hne : b' ≠ b := by
      rintro rfl
      obtain ⟨hi', hget⟩ := List.getElem?_eq_some_iff.1 hb'
      obtain ⟨ht', hget'⟩ := List.getElem?_eq_some_iff.1 hb
      have heq := (List.Nodup.getElem_inj_iff hn).1 (hget.trans hget'.symm)
      omega
    simp only [LogDisk.install, Function.update_of_ne hne]
    exact h i hlt b' hb'
  · obtain rfl : b = b' := Option.some.inj (hb.symm.trans hb')
    simp [LogDisk.install]

theorem Installed.all {tail : ℕ} (h : d.Installed tail) (ht : d.head[tail]? = none) :
    ∀ b ∈ d.head, d.home b = d.logged (d.head.idxOf b) := by
  intro b hb
  have hlt := List.idxOf_lt_length_iff.2 hb
  have hlen := List.getElem?_eq_none_iff.1 ht
  refine h _ (by omega) b ?_
  rw [List.getElem?_eq_getElem hlt, List.getElem_idxOf]

end LogDisk

/-! ## Recovery -/

/-- A recovery: the header as it was read, the blocks copied, and whether the header has
    been erased. -/
structure Recovery (B D : Type) where
  disk : LogDisk B D
  head : List B
  tail : ℕ
  done : Bool

/-- What happens during a recovery. -/
inductive RecoveryAct where
  /-- the next write to the disk -/
  | write
  | crash

namespace Recovery

/-- The beginning of a recovery: the header is read. -/
def start (d : LogDisk B D) : Recovery B D := ⟨d, d.head, 0, false⟩

/-- One write of the recovery, or a crash, after which it starts again. -/
def step (s : Recovery B D) : RecoveryAct → Option (Recovery B D)
  | .crash => some (start s.disk)
  | .write =>
    if s.done then none
    else
      match s.head[s.tail]? with
      | some b => some { s with disk := s.disk.install b s.tail, tail := s.tail + 1 }
      | none => some { s with disk := { s.disk with head := [] }, done := true }

/-- The view is that of the first disk. -/
structure Inv (view : B → D) (s : Recovery B D) : Prop where
  view : s.disk.view = view
  nodup : s.disk.head.Nodup
  going : s.done = false → s.head = s.disk.head ∧ s.disk.Installed s.tail
  done : s.done = true → s.disk.head = []

variable {d : LogDisk B D} {s s' : Recovery B D} {view : B → D}

theorem Inv.start (hv : d.view = view) (hn : d.head.Nodup) : Inv view (Recovery.start d) :=
  ⟨hv, hn, fun _ => ⟨rfl, d.installed_zero⟩, fun h => by cases h⟩

theorem Inv.step (h : Inv view s) {a : RecoveryAct} (hs : s.step a = some s') : Inv view s' := by
  cases a with
  | crash =>
    cases hs
    exact .start h.view h.nodup
  | write =>
    simp only [Recovery.step] at hs
    split at hs
    case isTrue => cases hs
    case isFalse hd =>
      obtain ⟨hhead, hinst⟩ := h.going (Bool.eq_false_iff.2 hd)
      rw [hhead] at hs
      split at hs
      case h_1 b hb =>
        cases hs
        refine ⟨?_, h.nodup, fun _ => ⟨rfl, hinst.install h.nodup hb⟩, fun hd' => absurd hd' hd⟩
        rw [LogDisk.view_install (List.mem_of_getElem? hb), h.view]
      case h_2 hb =>
        cases hs
        refine ⟨?_, List.nodup_nil, fun hd' => (by cases hd'), fun _ => rfl⟩
        rw [LogDisk.view_erase (hinst.all hb), h.view]

/-- **Recovery and crashes.** -/
theorem view_eq (hn : d.head.Nodup) (h : Reachable step (start d) s) :
    s.disk.view = d.view ∧ s.disk.head.Nodup ∧
      (s.done = true → s.disk.head = [] ∧ s.disk.home = d.view) := by
  have hinv : Inv d.view s := h.invariant (.start rfl hn) fun _ _ _ h _ hs => h.step hs
  refine ⟨hinv.view, hinv.nodup, ?_⟩
  intro hd
  have hnil := hinv.done hd
  exact ⟨hnil, by rw [← LogDisk.view_of_head_nil hnil, hinv.view]⟩

end Recovery

end Lib
