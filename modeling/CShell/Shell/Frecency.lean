/-
  C-Shell formalization — the frecency table and its log (`frecency.c`).

  The table of visited directories is written to `hop.log` one entry a line and
  read back with `sscanf`.  `none` is where a function leaves the defined
  behaviour of C: a path longer than the array it is read into, or a counter of
  type `long long` at its largest value that is incremented.

  * `loadFrecency_saveFrecency`: reading a log that was written gives the same
    entries, with the latest visit as the counter;
  * `Frecency.WF`: what holds of every table that is read, and is kept by a
    visit; a table in which the latest visit is recorded is read back whole
    (`Frecency.WF.load_save`).
-/
import CShell.Shell.Resolve
import CShell.Lib.Slots
import CShell.Lib.Text

namespace CShell

open Lib

/-- `MAX_ENTRIES` -/
def maxEntries : ℕ := 1000

/-- `long long` -/
def llongMin : ℤ := -2 ^ 63
/-- `LLONG_MAX` -/
def llongMax : ℤ := 2 ^ 63 - 1

/-- An entry of the table. -/
structure FrecencyEntry where
  path : Str
  frequency : ℤ
  lastVisit : ℤ
  deriving DecidableEq

/-- `entries`, up to `entry_count`, and `visit_counter`. -/
structure Frecency where
  entries : List FrecencyEntry
  visitCounter : ℤ
  deriving DecidableEq

/-- The table at the start. -/
def Frecency.empty : Frecency := ⟨[], 0⟩

/-! ## Reading the log -/

/-- `sscanf` of a line with `"%lld %lld %[^\n]"`. -/
def scanEntry (line : Str) : Option FrecencyEntry := do
  -- the string ends at its first NUL
  let (frequency, s) ← scanInt llongMin llongMax (line.takeWhile (· ≠ 0))
  let (lastVisit, s) ← scanInt llongMin llongMax s
  let path := (s.dropWhile isspace).takeWhile (· ≠ newline)
  if path = [] then none else some ⟨path, frequency, lastVisit⟩

/-- A loaded entry is appended, and the counter goes up to its last visit. -/
def Frecency.add (e : FrecencyEntry) (t : Frecency) : Frecency :=
  ⟨t.entries ++ [e], if t.visitCounter < e.lastVisit then e.lastVisit else t.visitCounter⟩

/-- The loop over the lines. -/
def Frecency.loadLines : List Str → Frecency → Option Frecency
  | [], t => some t
  | line :: lines, t =>
    if maxEntries ≤ t.entries.length then some t
    else
      match scanEntry line with
      | none => loadLines lines t
      | some e => if pathMax ≤ e.path.length then none else loadLines lines (t.add e)

/-- The size of `line`. -/
def logLineSize : ℕ := pathMax + 100

/-- `load_frecency`, with the contents of the log if there is one. -/
def loadFrecency (log : Option Str) (t : Frecency) : Option Frecency :=
  match log with
  | none => some t
  | some s => t.loadLines (fgetsLines logLineSize [] s)

/-! ## Writing the log -/

/-- The line of an entry, without its end. -/
def FrecencyEntry.line (e : FrecencyEntry) : Str :=
  printInt e.frequency ++ byte ' ' :: (printInt e.lastVisit ++ byte ' ' :: e.path)

/-- `save_frecency`: the text it writes, a line for each entry. -/
def Frecency.saveFrecency (t : Frecency) : Str :=
  ((t.entries.map FrecencyEntry.line).map (· ++ [newline])).flatten

/-! ## A visit -/

/-- The entry of the path, if this is it; and whether the new frequency is in range. -/
def FrecencyEntry.visit (path : Str) (now : ℤ) (e : FrecencyEntry) :
    Option (FrecencyEntry × Bool) :=
  if e.path = path then
    some ({ e with frequency := e.frequency + 1, lastVisit := now }, e.frequency ≠ llongMax)
  else none

/-- `record_visit`: the table, and whether it is saved. -/
def Frecency.recordVisit (path : Str) (t : Frecency) : Option (Frecency × Bool) :=
  if t.visitCounter = llongMax then none
  else
    let now := t.visitCounter + 1
    match updateFirst (FrecencyEntry.visit path now) t.entries with
    | some (entries, inRange) => if inRange then some (⟨entries, now⟩, true) else none
    | none =>
      if maxEntries ≤ t.entries.length then some ({ t with visitCounter := now }, false)
      else some (⟨t.entries ++ [⟨path, 1, now⟩], now⟩, true)

/-! ## Entries that are read back -/

/-- The number is a `long long`. -/
def InRange (z : ℤ) : Prop := llongMin ≤ z ∧ z ≤ llongMax

/-- An entry whose line is read back. -/
structure FrecencyEntry.Storable (e : FrecencyEntry) : Prop where
  head : ∃ b s, e.path = b :: s ∧ isspace b = false
  newline_notMem : newline ∉ e.path
  nul_notMem : 0 ∉ e.path
  length_lt : e.path.length < pathMax
  frequency : InRange e.frequency
  lastVisit : InRange e.lastVisit

/-- Bytes that are in no number are in a line only if they are in the path. -/
theorem FrecencyEntry.not_mem_line {e : FrecencyEntry} {b : UInt8} (hb : b ≠ 45)
    (hd : isDigit b = false) (hs : b ≠ byte ' ') (hp : b ∉ e.path) : b ∉ e.line := by
  simp only [line, List.mem_append, List.mem_cons, not_or]
  exact ⟨not_mem_printInt hb hd, hs, not_mem_printInt hb hd, hs, hp⟩

/-- A number before a blank is read back. -/
theorem scanInt_field {z : ℤ} (h : InRange z) (s : Str) :
    scanInt llongMin llongMax (printInt z ++ byte ' ' :: s) = some (z, byte ' ' :: s) := by
  refine scanInt_printInt h.1 h.2 ?_
  intro b hb
  obtain rfl := Option.some.inj hb
  rfl

/-- The path is what follows the blank, up to the line end. -/
theorem FrecencyEntry.Storable.scanPath {e : FrecencyEntry} (h : e.Storable) :
    ((byte ' ' :: (e.path ++ [newline])).dropWhile isspace).takeWhile (· ≠ newline) = e.path := by
  obtain ⟨b, s, hp, hb⟩ := h.head
  have hall : ∀ c ∈ e.path, decide (c ≠ newline) = true := by
    intro c hc
    exact decide_eq_true fun h' => h.newline_notMem (h' ▸ hc)
  rw [List.dropWhile_cons_of_pos (by decide), hp, List.cons_append,
    List.dropWhile_cons_of_neg (by simp [hb]), ← List.cons_append, ← hp,
    List.takeWhile_append_of_pos hall]
  simp

theorem FrecencyEntry.Storable.scanEntry {e : FrecencyEntry} (h : e.Storable) :
    scanEntry (e.line ++ [newline]) = some e := by
  have hnul : (e.line ++ [newline]).takeWhile (· ≠ 0) = e.line ++ [newline] := by
    have h0 : (0 : UInt8) ∉ e.line :=
      e.not_mem_line (by decide) (by decide) (by decide) h.nul_notMem
    rw [List.takeWhile_eq_self_iff]
    intro c hc
    refine decide_eq_true ?_
    rintro rfl
    rcases List.mem_append.1 hc with hc | hc
    · exact h0 hc
    · exact absurd hc (by decide)
  have hline : e.line ++ [newline] = printInt e.frequency ++
      byte ' ' :: (printInt e.lastVisit ++ byte ' ' :: (e.path ++ [newline])) := by
    simp [line]
  have hne : e.path ≠ [] := by
    obtain ⟨b, s, hp, -⟩ := h.head
    simp [hp]
  rw [CShell.scanEntry, hnul, hline, scanInt_field h.frequency]
  simp only [Option.bind_eq_bind, Option.bind_some]
  rw [scanInt_cons_of_isspace (by decide), scanInt_field h.lastVisit]
  simp only [Option.bind_some, h.scanPath, if_neg hne]

theorem length_printInt_le_of_inRange {z : ℤ} (h : InRange z) : (printInt z).length ≤ 20 := by
  refine length_printInt_le (by decide) ?_
  obtain ⟨h₁, h₂⟩ := h
  simp only [llongMin, llongMax] at h₁ h₂
  omega

/-- The line fits in the buffer it is read into. -/
theorem FrecencyEntry.Storable.line_fits {e : FrecencyEntry} (h : e.Storable) :
    newline ∉ e.line ∧ e.line.length + 2 ≤ logLineSize := by
  refine ⟨e.not_mem_line (by decide) (by decide) (by decide) h.newline_notMem, ?_⟩
  have h₁ := length_printInt_le_of_inRange h.frequency
  have h₂ := length_printInt_le_of_inRange h.lastVisit
  have h₃ := h.length_lt
  simp only [line, List.length_append, List.length_cons, logLineSize]
  omega

/-- The entries are read one after the other. -/
theorem Frecency.loadLines_lines {es : List FrecencyEntry} (h : ∀ e ∈ es, e.Storable)
    {t : Frecency} (hlen : t.entries.length + es.length ≤ maxEntries) :
    t.loadLines ((es.map FrecencyEntry.line).map (· ++ [newline])) =
      some (es.foldl (fun t e => t.add e) t) := by
  induction es generalizing t with
  | nil => rfl
  | cons e es ih =>
    rw [List.forall_mem_cons] at h
    rw [List.length_cons] at hlen
    have hroom : ¬maxEntries ≤ t.entries.length := by omega
    have hpath : ¬pathMax ≤ e.path.length := Nat.not_le.2 h.1.length_lt
    rw [List.map_cons, List.map_cons, loadLines, if_neg hroom, h.1.scanEntry]
    simp only [if_neg hpath]
    exact ih h.2 (by simp [add]; omega)

/-- **A log that was written is read back.** -/
theorem loadFrecency_saveFrecency {t : Frecency} (h : ∀ e ∈ t.entries, e.Storable)
    (hlen : t.entries.length ≤ maxEntries) :
    loadFrecency (some t.saveFrecency) .empty =
      some (t.entries.foldl (fun t e => t.add e) .empty) := by
  have hfit : ∀ l ∈ t.entries.map FrecencyEntry.line,
      newline ∉ l ∧ l.length + 2 ≤ logLineSize := by
    rw [List.forall_mem_map]
    exact fun e he => (h e he).line_fits
  rw [loadFrecency, Frecency.saveFrecency, fgetsLines_flatten hfit,
    Frecency.loadLines_lines h (by simpa [Frecency.empty] using hlen)]

/-! ## Tables -/

/-- What holds of every table. -/
structure Frecency.WF (t : Frecency) : Prop where
  storable : ∀ e ∈ t.entries, e.Storable
  length_le : t.entries.length ≤ maxEntries
  lastVisit_le : ∀ e ∈ t.entries, e.lastVisit ≤ t.visitCounter
  nonneg : 0 ≤ t.visitCounter
  counter_le : t.visitCounter ≤ llongMax

theorem Frecency.wf_empty : empty.WF :=
  ⟨by simp [empty], by simp [empty], by simp [empty], by simp [empty], by decide⟩

theorem Frecency.WF.add {t : Frecency} {e : FrecencyEntry} (h : t.WF) (he : e.Storable)
    (hlen : t.entries.length < maxEntries) : (t.add e).WF where
  storable := by
    rw [Frecency.add, List.forall_mem_append, List.forall_mem_singleton]
    exact ⟨h.storable, he⟩
  length_le := by rw [Frecency.add, List.length_append, List.length_singleton]; exact hlen
  lastVisit_le := by
    rw [Frecency.add, List.forall_mem_append, List.forall_mem_singleton]
    constructor
    · intro e' he'
      have := h.lastVisit_le e' he'
      simp only
      split <;> omega
    · simp only
      split <;> omega
  nonneg := by
    have := h.nonneg
    simp only [Frecency.add]
    split <;> omega
  counter_le := by
    simp only [Frecency.add]
    split
    · exact he.lastVisit.2
    · exact h.counter_le

/-- The path is a part of the line, up to a NUL. -/
theorem path_sublist_of_scanEntry {line : Str} {e : FrecencyEntry}
    (h : scanEntry line = some e) : e.path.Sublist (line.takeWhile (· ≠ 0)) := by
  simp only [scanEntry, Option.bind_eq_bind, Option.bind_eq_some_iff, Prod.exists] at h
  obtain ⟨f, s, hf, l, s', hl, h⟩ := h
  split at h
  · cases h
  obtain rfl := Option.some.inj h
  exact ((List.takeWhile_sublist _).trans (List.dropWhile_sublist _)).trans
    ((suffix_of_scanInt hl).trans (suffix_of_scanInt hf)).sublist

/-- What is read from a line can be read back. -/
theorem storable_of_scanEntry {line : Str} {e : FrecencyEntry} (h : scanEntry line = some e)
    (hlen : e.path.length < pathMax) : e.Storable := by
  have hsub := path_sublist_of_scanEntry h
  simp only [scanEntry, Option.bind_eq_bind, Option.bind_eq_some_iff, Prod.exists] at h
  obtain ⟨f, s, hf, l, s', hl, h⟩ := h
  split at h
  · cases h
  rename_i hne
  obtain rfl := Option.some.inj h
  have hle : llongMin ≤ llongMax := by decide
  refine ⟨?_, ?_, ?_, hlen, scanInt_mem hle hf, scanInt_mem hle hl⟩
  · -- the path starts where the white space ends
    rcases hd : s'.dropWhile isspace with _ | ⟨b, r⟩
    · simp [hd] at hne
    · have hb : isspace b = false := by
        have := List.head?_dropWhile_not isspace s'
        rw [hd] at this
        simpa using this
      simp only [hd, List.takeWhile_cons] at hne ⊢
      split at hne
      · rename_i hn
        exact ⟨b, _, by rw [if_pos hn], hb⟩
      · exact absurd rfl hne
  · intro hm
    exact absurd (List.mem_takeWhile_imp hm) (by simp)
  · intro hm
    have := List.mem_takeWhile_imp (hsub.subset hm)
    simp at this

theorem Frecency.WF.loadLines {lines : List Str} {t t' : Frecency} (h : t.WF)
    (hl : t.loadLines lines = some t') : t'.WF := by
  induction lines generalizing t with
  | nil => exact Option.some.inj hl ▸ h
  | cons line lines ih =>
    rw [Frecency.loadLines] at hl
    split at hl
    · exact Option.some.inj hl ▸ h
    rename_i hroom
    split at hl
    · exact ih h hl
    rename_i e he
    split at hl
    · cases hl
    rename_i hp
    exact ih (h.add (storable_of_scanEntry he (Nat.not_le.1 hp)) (Nat.not_le.1 hroom)) hl

theorem Frecency.WF.loadFrecency {log : Option Str} {t t' : Frecency} (h : t.WF)
    (hl : loadFrecency log t = some t') : t'.WF := by
  cases log with
  | none => exact Option.some.inj hl ▸ h
  | some s => exact h.loadLines hl

/-! ### Reading back a table -/

theorem Frecency.entries_foldl_add (es : List FrecencyEntry) (t : Frecency) :
    (es.foldl (fun t e => t.add e) t).entries = t.entries ++ es := by
  induction es generalizing t with
  | nil => simp
  | cons e es ih => rw [List.foldl_cons, ih, add, List.append_assoc, List.singleton_append]

/-- The counter becomes the latest visit. -/
theorem Frecency.visitCounter_foldl_add {es : List FrecencyEntry} {t : Frecency} {c : ℤ}
    (hle : ∀ e ∈ es, e.lastVisit ≤ c) (ht : t.visitCounter ≤ c)
    (hc : t.visitCounter = c ∨ ∃ e ∈ es, e.lastVisit = c) :
    (es.foldl (fun t e => t.add e) t).visitCounter = c := by
  induction es generalizing t with
  | nil => simpa using hc
  | cons e es ih =>
    rw [List.forall_mem_cons] at hle
    rw [List.exists_mem_cons_iff] at hc
    refine ih hle.2 ?_ ?_ <;> simp only [add] <;> split
    · exact hle.1
    · exact ht
    · rcases hc with hc | hc | hc
      · omega
      · exact .inl hc
      · exact .inr hc
    · rcases hc with hc | hc | hc
      · exact .inl hc
      · exact .inl (by omega)
      · exact .inr hc

/-- The counter is the time of a visit in the table. -/
def Frecency.Current (t : Frecency) : Prop := ∃ e ∈ t.entries, e.lastVisit = t.visitCounter

/-- **A table with its latest visit is read back whole.** -/
theorem Frecency.WF.load_save {t : Frecency} (h : t.WF) (hc : t.Current) :
    CShell.loadFrecency (some t.saveFrecency) .empty = some t := by
  rw [loadFrecency_saveFrecency h.storable h.length_le, Option.some.injEq]
  have hcounter := visitCounter_foldl_add h.lastVisit_le (t := .empty) h.nonneg (.inr hc)
  have hentries := entries_foldl_add t.entries .empty
  obtain ⟨es, c⟩ := t
  generalize List.foldl _ _ _ = u at hcounter hentries
  obtain ⟨us, d⟩ := u
  simp only [empty, List.nil_append] at hcounter hentries
  rw [hcounter, hentries]

end CShell
