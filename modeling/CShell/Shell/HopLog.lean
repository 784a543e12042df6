/-
  C-Shell formalization — the log of a table with any absolute paths.

  A path with a line end is written to `hop.log` over several lines.  The first
  of them is read as an entry with the path up to the line end, the others as
  what they look like or not at all.

  * `loadFrecency_saveFrecency_defined`: no line that is written is too long,
    whatever the paths;
  * `load_save_iff`: the entries are read back iff no path has a line end.
-/
import CShell.Shell.Frecency

namespace CShell

open Lib

/-- An entry as the shell records it: an absolute path that fits in its array,
    and counters that are not negative. -/
structure FrecencyEntry.Recorded (e : FrecencyEntry) : Prop where
  absolute : e.path.head? = some (byte '/')
  nul_notMem : 0 ∉ e.path
  length_lt : e.path.length < pathMax
  frequency : 0 ≤ e.frequency ∧ e.frequency ≤ llongMax
  lastVisit : 0 ≤ e.lastVisit ∧ e.lastVisit ≤ llongMax

theorem inRange_of_nonneg {z : ℤ} (h : 0 ≤ z ∧ z ≤ llongMax) : InRange z :=
  ⟨le_trans (by decide) h.1, h.2⟩

/-- With the part of the path up to a line end, an entry can be read back. -/
theorem FrecencyEntry.Recorded.storable {e : FrecencyEntry} {p s : Str} (h : e.Recorded)
    (hp : e.path = p ++ s) (hne : p ≠ []) (hn : newline ∉ p) :
    FrecencyEntry.Storable { e with path := p } where
  head := by
    obtain ⟨b, r, rfl⟩ := List.exists_cons_of_ne_nil hne
    have hb := h.absolute
    rw [hp, List.cons_append, List.head?_cons, Option.some.injEq] at hb
    exact ⟨b, r, rfl, by rw [hb]; decide⟩
  newline_notMem := hn
  nul_notMem := by
    intro h0
    refine h.nul_notMem ?_
    rw [hp]
    exact List.mem_append_left _ h0
  length_lt := by
    have := h.length_lt
    rw [hp, List.length_append] at this
    exact Nat.lt_of_le_of_lt (Nat.le_add_right _ _) this
  frequency := inRange_of_nonneg h.frequency
  lastVisit := inRange_of_nonneg h.lastVisit

/-- The path starts with a part that has no line end, and goes on after one or
    ends there. -/
theorem FrecencyEntry.Recorded.split {e : FrecencyEntry} (h : e.Recorded) :
    ∃ p s, e.path = p ++ s ∧ p ≠ [] ∧ newline ∉ p ∧ (s = [] ∨ ∃ r, s = newline :: r) := by
  refine ⟨_, _, (List.takeWhile_append_dropWhile (p := (· ≠ newline))).symm, ?_, ?_, ?_⟩
  · obtain ⟨r, hr⟩ := List.head?_eq_some_iff.1 h.absolute
    rw [hr, List.takeWhile_cons_of_pos (by decide)]
    exact List.cons_ne_nil _ _
  · intro hm
    exact absurd (List.mem_takeWhile_imp hm) (by simp)
  · rcases hd : e.path.dropWhile (· ≠ newline) with _ | ⟨b, r⟩
    · exact .inl rfl
    · have hb := List.head?_dropWhile_not (· ≠ newline) e.path
      rw [hd] at hb
      exact .inr ⟨r, by simpa using hb⟩

/-! ## The lines that are read -/

/-- A line whose path fits in the array it is read into. -/
def LineFits (line : Str) : Prop := ∀ e, scanEntry line = some e → e.path.length < pathMax

theorem lineFits_of_length_lt {line : Str} (h : line.length < pathMax) : LineFits line := by
  intro e he
  have hsub := (path_sublist_of_scanEntry he).trans (List.takeWhile_sublist _)
  exact Nat.lt_of_le_of_lt hsub.length_le h

theorem FrecencyEntry.Storable.fits {e : FrecencyEntry} (h : e.Storable) :
    LineFits (e.line ++ [newline]) := by
  intro e' he
  rw [h.scanEntry] at he
  exact Option.some.inj he ▸ h.length_lt

/-- The lines of an entry, and those of what follows. -/
theorem FrecencyEntry.Recorded.fits {e : FrecencyEntry} (h : e.Recorded) {s : Str}
    (hs : ∀ line ∈ fgetsLines logLineSize [] s, LineFits line) :
    ∀ line ∈ fgetsLines logLineSize [] (e.line ++ newline :: s), LineFits line := by
  obtain ⟨p, r, hp, hne, hn, hr⟩ := h.split
  have hst := h.storable hp hne hn
  have hline : e.line = { e with path := p }.line ++ r := by simp [line, hp]
  obtain ⟨hn', hlen⟩ := hst.line_fits
  rw [hline]
  rcases hr with rfl | ⟨r, rfl⟩
  · rw [List.append_nil, fgetsLines_append hn' _ (by simpa using hlen), List.nil_append,
      List.forall_mem_cons]
    exact ⟨hst.fits, hs⟩
  · rw [List.append_assoc, List.cons_append, fgetsLines_append hn' _ (by simpa using hlen),
      List.nil_append, List.forall_mem_cons]
    refine ⟨hst.fits, ?_⟩
    -- the lines of the rest are shorter than the path
    have hlt := h.length_lt
    simp only [hp, List.length_append, List.length_cons] at hlt
    intro line hl
    rcases mem_fgetsLines_append (by simp only [List.length_nil, logLineSize]; omega) hl with hl | hl
    · rw [List.length_nil] at hl
      exact lineFits_of_length_lt (by omega)
    · exact hs line hl

theorem Frecency.loadLines_defined {lines : List Str} (h : ∀ line ∈ lines, LineFits line)
    (t : Frecency) : ∃ u, t.loadLines lines = some u := by
  induction lines generalizing t with
  | nil => exact ⟨t, rfl⟩
  | cons line lines ih =>
    rw [List.forall_mem_cons] at h
    rw [loadLines]
    split
    · exact ⟨t, rfl⟩
    split
    · exact ih h.2 t
    rename_i e he
    rw [if_neg (Nat.not_le.2 (h.1 e he))]
    exact ih h.2 _

/-- **Every log that is written can be read.** -/
theorem loadFrecency_saveFrecency_defined {t : Frecency} (h : ∀ e ∈ t.entries, e.Recorded) :
    ∃ u, loadFrecency (some t.saveFrecency) .empty = some u := by
  refine Frecency.loadLines_defined ?_ .empty
  rw [Frecency.saveFrecency]
  generalize t.entries = es at h
  induction es with
  | nil => simp [fgetsLines]
  | cons e es ih =>
    rw [List.forall_mem_cons] at h
    rw [List.map_cons, List.map_cons, List.flatten_cons, List.append_assoc, List.singleton_append]
    exact h.1.fits (ih h.2)

/-! ## The round trip -/

theorem Frecency.visitCounter_foldl_add_eq_max (es : List FrecencyEntry) (t : Frecency) :
    (es.foldl (fun t e => t.add e) t).visitCounter =
      (es.map (·.lastVisit)).foldl max t.visitCounter := by
  induction es generalizing t with
  | nil => rfl
  | cons e es ih => rw [List.foldl_cons, ih, List.map_cons, List.foldl_cons, add, max_def_lt]

/-- **Saving and loading**: the entries that were saved are loaded again iff no path has a line end in
    it, and then the counter is the latest visit. -/
theorem load_save_iff (t : Frecency) (hlen : t.entries.length ≤ maxEntries)
    (h : ∀ e ∈ t.entries, e.Recorded) :
    ∃ u, loadFrecency (some t.saveFrecency) .empty = some u ∧
      (u.entries = t.entries ↔ ∀ e ∈ t.entries, newline ∉ e.path) ∧
      ((∀ e ∈ t.entries, newline ∉ e.path) →
        u.visitCounter = (t.entries.map (·.lastVisit)).foldl max 0) := by
  obtain ⟨u, hu⟩ := loadFrecency_saveFrecency_defined h
  -- without line ends the entries are added one after the other
  have hload : (∀ e ∈ t.entries, newline ∉ e.path) →
      u = t.entries.foldl (fun t e => t.add e) .empty := by
    intro hn
    have hst : ∀ e ∈ t.entries, e.Storable := by
      intro e he
      obtain ⟨p, s, hp, hne, -, -⟩ := (h e he).split
      have hpath : e.path ≠ [] := by simp [hp, hne]
      exact (h e he).storable (List.append_nil _).symm hpath (hn e he)
    rw [loadFrecency_saveFrecency hst hlen] at hu
    exact (Option.some.inj hu).symm
  refine ⟨u, hu, ⟨?_, ?_⟩, ?_⟩
  · intro heq e he
    rw [← heq] at he
    exact ((Frecency.wf_empty.loadFrecency hu).storable e he).newline_notMem
  · intro hn
    rw [hload hn, Frecency.entries_foldl_add]
    rfl
  · intro hn
    rw [hload hn, Frecency.visitCounter_foldl_add_eq_max]
    rfl

/-- Two directories whose names look like numbers. -/
def twoDirs : Frecency := ⟨[⟨str "/1 2", 3, 7⟩, ⟨str "/home/4", 1, 9⟩], 12⟩

theorem load_save_iff_twoDirs :
    twoDirs.entries.length ≤ maxEntries ∧ (∀ e ∈ twoDirs.entries, e.Recorded) ∧
      ∃ u, loadFrecency (some twoDirs.saveFrecency) .empty = some u ∧
        u.entries = twoDirs.entries ∧ u.visitCounter = 9 := by
  have hlen : twoDirs.entries.length ≤ maxEntries := by decide
  have h : ∀ e ∈ twoDirs.entries, e.Recorded := by
    simp only [twoDirs, List.forall_mem_cons]
    exact ⟨⟨by decide, by decide, by decide, by decide, by decide⟩,
      ⟨by decide, by decide, by decide, by decide, by decide⟩, by simp⟩
  have hn : ∀ e ∈ twoDirs.entries, newline ∉ e.path := by decide
  obtain ⟨u, hu, hiff, hc⟩ := load_save_iff twoDirs hlen h
  exact ⟨hlen, h, u, hu, hiff.2 hn, hc hn⟩

end CShell
