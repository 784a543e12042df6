/-
  C-Shell formalization — changing directories (`hop.c`) and the log.

  `init_frecency` reads `hop.log` where the shell starts; `record_visit` writes
  it after each change of directory, under a relative name and thus in the new
  directory.  The logs are a map from directories to contents.

  `restart_loads_iff`: a new shell started where the first one was started has
  its table iff the last directory the first one has recorded is that one.
-/
import CShell.Shell.Frecency
import Mathlib.Data.Finset.Card

namespace CShell

open Lib

/-! ## The model -/

/-- What `hop` keeps between commands, and the `hop.log` files. -/
structure HopState where
  cwd : Str
  /-- `prev_dir`, once `prev_dir_flag` is set -/
  prevDir : Option Str
  frecency : Frecency
  /-- `hop.log` of each directory -/
  logs : Str → Option Str

/-- `init_hop`, in the directory the shell is started in. -/
def initHop (homeDir : Str) (logs : Str → Option Str) : Option HopState :=
  (loadFrecency (logs homeDir) .empty).map (⟨homeDir, none, ·, logs⟩)

/-- `record_visit` in the present directory; the log can be written. -/
def HopState.recordVisit (path : Str) (s : HopState) : Option HopState :=
  (s.frecency.recordVisit path).map fun (t, saved) =>
    { s with
      frecency := t
      logs := if saved then Function.update s.logs s.cwd (some t.saveFrecency) else s.logs }

/-- `getcwd` with an array of `PATH_MAX` bytes. -/
def HopState.getcwd (s : HopState) : Option Str :=
  if s.cwd.length < pathMax then some s.cwd else none

/-- `change_dir`; `dest` is the directory `chdir` leads to, if it succeeds. -/
def HopState.changeDir (dest : Option Str) (s : HopState) : Option (HopState × Bool) :=
  match s.getcwd, dest with
  | none, _ => some (s, false)
  | some _, none => some (s, false)
  | some cwd, some d =>
    let s := { s with cwd := d, prevDir := some cwd }
    match s.getcwd with
    | none => some (s, true)
    | some path => (s.recordVisit path).map (·, true)

/-- Successful changes of directory, to the given ones. -/
def HopState.hops : List Str → HopState → Option HopState
  | [], s => some s
  | d :: ds, s =>
    match s.changeDir (some d) with
    | some (s, true) => s.hops ds
    | _ => none

/-! ## A visit -/

/-- A directory as `getcwd` names it, without a line end. -/
structure IsPath (p : Str) : Prop where
  absolute : p.head? = some (byte '/')
  newline_notMem : newline ∉ p
  nul_notMem : 0 ∉ p

/-- The paths in the table, in their order. -/
def Frecency.paths (t : Frecency) : List Str := t.entries.map FrecencyEntry.path

/-- Everything a visit does to the table. -/
theorem Frecency.recordVisit_cases {p : Str} {t t' : Frecency} {saved : Bool}
    (h : t.recordVisit p = some (t', saved)) :
    t.visitCounter ≠ llongMax ∧ t'.visitCounter = t.visitCounter + 1 ∧
      ((saved ∧ ∃ pre e post, t.entries = pre ++ e :: post ∧ e.path = p ∧
          e.frequency ≠ llongMax ∧ t'.entries = pre ++
            { e with frequency := e.frequency + 1, lastVisit := t.visitCounter + 1 } :: post) ∨
        (saved ∧ p ∉ t.paths ∧ t.entries.length < maxEntries ∧
          t'.entries = t.entries ++ [⟨p, 1, t.visitCounter + 1⟩]) ∨
        (p ∉ t.paths ∧ maxEntries ≤ t.entries.length)) := by
  unfold recordVisit at h
  split at h
  · cases h
  rename_i hc
  refine ⟨hc, ?_⟩
  rcases hu : updateFirst (FrecencyEntry.visit p (t.visitCounter + 1)) t.entries with
    _ | ⟨es, ok⟩ <;> simp only [hu] at h
  · have hp : p ∉ t.paths := by
      intro hp
      obtain ⟨e, he, rfl⟩ := List.mem_map.1 hp
      have := updateFirst_eq_none.1 hu e he
      simp [FrecencyEntry.visit] at this
    split at h
    · cases h
      exact ⟨rfl, .inr (.inr ⟨hp, ‹_›⟩)⟩
    · cases h
      exact ⟨rfl, .inr (.inl ⟨rfl, hp, Nat.not_le.1 ‹_›, rfl⟩)⟩
  · split at h
    · cases h
      obtain ⟨pre, e, e', post, hes, hes', he⟩ := exists_of_updateFirst hu
      unfold FrecencyEntry.visit at he
      split at he
      · obtain ⟨rfl, hr⟩ := Prod.mk.inj (Option.some.inj he)
        refine ⟨rfl, .inl ⟨rfl, pre, e, post, hes, ‹_›, ?_, hes'⟩⟩
        have hok : ok = true := ‹_›
        rw [hok] at hr
        exact of_decide_eq_true hr
      · cases he
    · cases h

section
variable {p : Str} {t t' : Frecency} {saved : Bool}

/-- The time of a visit is in range: the counter is not at its largest value. -/
theorem Frecency.WF.inRange_now (wf : t.WF) (hc : t.visitCounter ≠ llongMax) :
    InRange (t.visitCounter + 1) := by
  have hn := wf.nonneg
  have hle := wf.counter_le
  constructor
  · show (-2 ^ 63 : ℤ) ≤ t.visitCounter + 1
    omega
  · omega

/-- A table in which one entry is new or changed, at the time of the visit. -/
theorem Frecency.WF.visited {e : FrecencyEntry} (wf : t.WF) (pre post : List FrecencyEntry)
    (hc : t.visitCounter ≠ llongMax) (hrest : ∀ e' ∈ pre ++ post, e' ∈ t.entries)
    (he : e.Storable) (hl : e.lastVisit = t.visitCounter + 1)
    (hlen : (pre ++ e :: post).length ≤ maxEntries) :
    WF ⟨pre ++ e :: post, t.visitCounter + 1⟩ ∧ Current ⟨pre ++ e :: post, t.visitCounter + 1⟩ := by
  have hmem {e' : FrecencyEntry} (h : e' ∈ pre ++ e :: post) : e' = e ∨ e' ∈ t.entries := by
    rcases List.mem_append.1 h with h | h
    · exact .inr (hrest e' (List.mem_append_left _ h))
    · rcases List.mem_cons.1 h with h | h
      · exact .inl h
      · exact .inr (hrest e' (List.mem_append_right _ h))
  refine ⟨⟨?_, hlen, ?_, ?_, (wf.inRange_now hc).2⟩, e, by simp, hl⟩
  · intro e' h
    rcases hmem h with rfl | h
    · exact he
    · exact wf.storable e' h
  · intro e' h
    show e'.lastVisit ≤ t.visitCounter + 1
    rcases hmem h with rfl | h
    · omega
    · have := wf.lastVisit_le e' h
      omega
  · have := wf.nonneg
    show 0 ≤ t.visitCounter + 1
    omega

/-- A new entry can be read back. -/
theorem IsPath.storable {l : ℤ} (h : IsPath p) (hlen : p.length < pathMax) (hl : InRange l) :
    (⟨p, 1, l⟩ : FrecencyEntry).Storable where
  head := by
    obtain ⟨s, hs⟩ := List.head?_eq_some_iff.1 h.absolute
    exact ⟨_, s, hs, by decide⟩
  newline_notMem := h.newline_notMem
  nul_notMem := h.nul_notMem
  length_lt := hlen
  frequency := show InRange 1 from ⟨by decide, by decide⟩
  lastVisit := hl

/-- So can an entry that is visited again. -/
theorem FrecencyEntry.Storable.visit {e : FrecencyEntry} {l : ℤ} (h : e.Storable)
    (hf : e.frequency ≠ llongMax) (hl : InRange l) :
    FrecencyEntry.Storable { e with frequency := e.frequency + 1, lastVisit := l } where
  head := h.head
  newline_notMem := h.newline_notMem
  nul_notMem := h.nul_notMem
  length_lt := h.length_lt
  frequency := by
    obtain ⟨h₁, h₂⟩ := h.frequency
    constructor
    · show llongMin ≤ e.frequency + 1
      omega
    · show e.frequency + 1 ≤ llongMax
      omega
  lastVisit := hl

/-! ### Room for the directories -/

/-- The directories still to be recorded have room in the table. -/
def Frecency.Room (ds : Finset Str) (t : Frecency) : Prop :=
  t.entries.length + (ds \ t.paths.toFinset).card ≤ maxEntries

theorem Frecency.Room.of_mem {ds : Finset Str} (h : t.Room (insert p ds)) (hp : p ∈ t.paths)
    (hpaths : t'.paths = t.paths) : t'.Room ds := by
  have hlen : t'.entries.length = t.entries.length := by
    simpa [paths] using congrArg List.length hpaths
  unfold Room at h ⊢
  rwa [Finset.insert_sdiff_of_mem _ (List.mem_toFinset.2 hp), ← hlen, ← hpaths] at h

theorem Frecency.Room.card {ds : Finset Str} (h : t.Room (insert p ds)) (hp : p ∉ t.paths) :
    t.entries.length + 1 + ((ds \ t.paths.toFinset).erase p).card ≤ maxEntries := by
  have hp : p ∉ t.paths.toFinset := fun h => hp (List.mem_toFinset.1 h)
  unfold Room at h
  rw [Finset.insert_sdiff_of_notMem _ hp, ← Finset.card_erase_add_one (Finset.mem_insert_self p _),
    Finset.erase_insert_eq_erase] at h
  omega

theorem Frecency.Room.of_notMem {ds : Finset Str} (h : t.Room (insert p ds)) (hp : p ∉ t.paths)
    {e : FrecencyEntry} (he : e.path = p) (hent : t'.entries = t.entries ++ [e]) : t'.Room ds := by
  have hcard := h.card hp
  have hsub : ds \ t'.paths.toFinset ⊆ (ds \ t.paths.toFinset).erase p := by
    intro d hd
    simp only [paths, hent, List.map_append, List.map_singleton, he, Finset.mem_sdiff,
      List.mem_toFinset, List.mem_append, List.mem_singleton, not_or, Finset.mem_erase] at hd ⊢
    exact ⟨hd.2.2, hd.1, hd.2.1⟩
  have hle := Finset.card_le_card hsub
  show t'.entries.length + (ds \ t'.paths.toFinset).card ≤ maxEntries
  rw [hent, List.length_append, List.length_singleton]
  omega

/-- **A visit with room for it** is saved; the table stays well formed and has the visit. -/
theorem Frecency.WF.recordVisit {ds : Finset Str} (wf : t.WF) (hp : IsPath p)
    (hlen : p.length < pathMax) (hroom : t.Room (insert p ds))
    (h : t.recordVisit p = some (t', saved)) :
    saved ∧ t'.WF ∧ t'.Current ∧ t'.Room ds := by
  obtain ⟨hc, hc', hcases⟩ := recordVisit_cases h
  obtain ⟨es, c⟩ := t'
  obtain rfl : c = t.visitCounter + 1 := hc'
  rcases hcases with ⟨hs, pre, e, post, hes, hep, hf, hes'⟩ | ⟨hs, hnew, hlt, hes'⟩ | ⟨hnew, hfull⟩
  · obtain rfl : es = _ := hes'
    have he : e ∈ t.entries := by simp [hes]
    obtain ⟨hwf, hcur⟩ := wf.visited pre post hc
      (fun e' h => by rw [hes]; simp only [List.mem_append, List.mem_cons] at h ⊢; tauto)
      ((wf.storable e he).visit hf (wf.inRange_now hc)) rfl
      (by have := wf.length_le; rw [hes] at this; simpa using this)
    refine ⟨hs, hwf, hcur, hroom.of_mem (List.mem_map.2 ⟨e, he, hep⟩) ?_⟩
    simp [paths, hes]
  · obtain rfl : es = _ := hes'
    obtain ⟨hwf, hcur⟩ := wf.visited t.entries [] hc (by simp)
      (hp.storable hlen (wf.inRange_now hc)) rfl
      (by rw [List.length_append]; exact hlt)
    exact ⟨hs, hwf, hcur, hroom.of_notMem hnew rfl rfl⟩
  · -- the table is not full, since the path is not in it
    have := hroom.card hnew
    omega

end

/-! ## A session -/

/-- The directories of the list that are recorded: those `getcwd` can name. -/
def recorded (ds : List Str) : List Str := ds.filter (·.length < pathMax)

/-- A change of directory that succeeds. -/
theorem HopState.changeDir_cases {d : Str} {s s' : HopState}
    (h : s.changeDir (some d) = some (s', true)) :
    (pathMax ≤ d.length ∧ s'.frecency = s.frecency ∧ s'.logs = s.logs) ∨
      (d.length < pathMax ∧ ∃ saved, s.frecency.recordVisit d = some (s'.frecency, saved) ∧
        s'.logs =
          if saved then Function.update s.logs d (some s'.frecency.saveFrecency) else s.logs) := by
  unfold changeDir at h
  split at h
  · cases h
  · cases h
  rename_i heq
  obtain rfl := Option.some.inj heq
  by_cases hd : d.length < pathMax
  · simp only [getcwd, if_pos hd] at h
    obtain ⟨u, hu, heq⟩ := Option.map_eq_some_iff.1 h
    obtain ⟨rfl, -⟩ := Prod.mk.inj heq
    obtain ⟨⟨t, saved⟩, ht, rfl⟩ := Option.map_eq_some_iff.1 hu
    exact .inr ⟨hd, saved, ht, rfl⟩
  · simp only [getcwd, if_neg hd] at h
    cases h
    exact .inl ⟨Nat.not_lt.1 hd, rfl, rfl⟩

/-- What the log of the start directory has, when `last` is the directory
    recorded last: the table of the shell, or one from before. -/
structure HopState.Logged (start last : Str) (s : HopState) : Prop where
  wf : s.frecency.WF
  log : ∃ u, loadFrecency (s.logs start) .empty = some u ∧
    if last = start then u = s.frecency else u.visitCounter < s.frecency.visitCounter

theorem HopState.logged_initHop {start : Str} {logs : Str → Option Str} {s : HopState}
    (h : initHop start logs = some s) : s.Logged start start := by
  obtain ⟨t, ht, rfl⟩ := Option.map_eq_some_iff.1 h
  exact ⟨Frecency.wf_empty.loadFrecency ht, t, ht, by rw [if_pos rfl]⟩

/-- A recorded change of directory. -/
theorem HopState.Logged.record {start last d : Str} {s s' : HopState} {saved : Bool}
    {ds : Finset Str} (h : s.Logged start last) (hp : IsPath d) (hlen : d.length < pathMax)
    (hroom : s.frecency.Room (insert d ds))
    (ht : s.frecency.recordVisit d = some (s'.frecency, saved))
    (hlogs : s'.logs =
      if saved then Function.update s.logs d (some s'.frecency.saveFrecency) else s.logs) :
    s'.Logged start d ∧ s'.frecency.Room ds := by
  obtain ⟨hs, wf, hcur, hroom⟩ := h.wf.recordVisit hp hlen hroom ht
  obtain ⟨-, hc, -⟩ := Frecency.recordVisit_cases ht
  rw [hs, if_pos rfl] at hlogs
  refine ⟨⟨wf, ?_⟩, hroom⟩
  by_cases hd : d = start
  · subst hd
    exact ⟨_, by rw [hlogs, Function.update_self, wf.load_save hcur], by rw [if_pos rfl]⟩
  · -- the log of the start directory stays behind
    obtain ⟨u, hu, hlast⟩ := h.log
    refine ⟨u, by rw [hlogs, Function.update_of_ne (Ne.symm hd), hu], ?_⟩
    rw [if_neg hd, hc]
    split at hlast
    · rw [hlast]; omega
    · omega

/-- **The log after any hops.** -/
theorem HopState.Logged.hops {start last : Str} {ds : List Str} {s s' : HopState}
    (h : s.Logged start last) (hpaths : ∀ d ∈ ds, IsPath d)
    (hroom : s.frecency.Room (recorded ds).toFinset) (hs : s.hops ds = some s') :
    s'.Logged start ((recorded ds).getLastD last) := by
  induction ds generalizing s last with
  | nil => exact Option.some.inj hs ▸ h
  | cons d ds ih =>
    rw [List.forall_mem_cons] at hpaths
    unfold HopState.hops at hs
    split at hs
    case h_2 => cases hs
    rename_i u hu
    rcases changeDir_cases hu with ⟨hd, hf, hl⟩ | ⟨hd, saved, ht, hl⟩
    · have hrec : recorded (d :: ds) = recorded ds := by
        rw [recorded, List.filter_cons_of_neg (by simpa using hd), recorded]
      rw [hrec, ← hf] at hroom
      rw [hrec]
      refine ih ⟨hf ▸ h.wf, ?_⟩ hpaths.2 hroom hs
      rw [hf, hl]
      exact h.log
    · have hrec : recorded (d :: ds) = d :: recorded ds := by
        rw [recorded, List.filter_cons_of_pos (by simpa using hd), recorded]
      rw [hrec, List.toFinset_cons] at hroom
      obtain ⟨hlog, hroom⟩ := h.record hpaths.1 hd hroom ht hl
      rw [hrec, List.getLastD_cons]
      exact ih hlog hpaths.2 hroom hs

/-- **The table survives a restart** iff the directory recorded last is the one both
    shells are started in. -/
theorem restart_loads_iff {start : Str} {logs : Str → Option Str} {ds : List Str}
    {s₀ s : HopState} (hinit : initHop start logs = some s₀) (hpaths : ∀ d ∈ ds, IsPath d)
    (hroom : s₀.frecency.Room (recorded ds).toFinset) (hs : s₀.hops ds = some s) :
    (initHop start s.logs).map HopState.frecency = some s.frecency ↔
      (recorded ds).getLastD start = start := by
  obtain ⟨-, u, hu, hlast⟩ := (HopState.logged_initHop hinit).hops hpaths hroom hs
  rw [initHop, hu, Option.map_some, Option.map_some, Option.some.injEq]
  split at hlast
  · exact iff_of_true hlast ‹_›
  · refine iff_of_false ?_ ‹_›
    intro h
    rw [show u = s.frecency from h] at hlast
    omega

/-- A shell that ends where it was started. -/
theorem restart_loads_after_return : ∃ s₀ s,
    initHop (str "/") (fun _ => none) = some s₀ ∧ s₀.hops [str "/tmp", str "/"] = some s ∧
      (initHop (str "/") s.logs).map HopState.frecency = some s.frecency := by
  have h₀ : initHop (str "/") (fun _ => none) = some ⟨str "/", none, .empty, fun _ => none⟩ := rfl
  obtain ⟨s, hs⟩ : ∃ s, (⟨str "/", none, .empty, fun _ => none⟩ : HopState).hops
      [str "/tmp", str "/"] = some s := ⟨_, rfl⟩
  refine ⟨_, s, h₀, hs, (restart_loads_iff h₀ ?_ ?_ hs).2 (by decide)⟩
  · simp only [List.forall_mem_cons]
    exact ⟨⟨rfl, by decide, by decide⟩, ⟨rfl, by decide, by decide⟩, by simp⟩
  · show 0 + _ ≤ maxEntries
    decide

/-- A hop out of the start directory: the table is saved in the other one. -/
theorem hop_away_forgets : ∃ s₀ s,
    initHop (str "/") (fun _ => none) = some s₀ ∧ s₀.hops [str "/tmp"] = some s ∧
      s.frecency = ⟨[⟨str "/tmp", 1, 1⟩], 1⟩ ∧
      s.logs (str "/tmp") = some (str "1 1 /tmp\n") ∧
      (initHop (str "/") s.logs).map HopState.frecency = some .empty :=
  ⟨_, _, rfl, rfl, rfl, rfl, rfl⟩

end CShell
