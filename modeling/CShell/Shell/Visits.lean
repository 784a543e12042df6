/-
  C-Shell formalization — the directory `hop` chooses (`find_frecency_match`).

  The table is compared with the sequence of visits it comes from.

  * `Frecency.recordVisits_eq`: it holds the first 1000 distinct paths, each with
    the number of its visits and the position of the last one;
  * `Frecency.findLoop_eq`: the loop finds the first entry with the highest score;
  * `find_is_best`: so the match is the best of these paths that contain the
    name and exist, the one visited first if there are several.
-/
import CShell.Shell.Frecency
import CShell.Lib.Occurrences
import Mathlib.Data.List.MinMax
import Mathlib.Data.Int.ConditionallyCompleteOrder
import Mathlib.Order.ConditionallyCompleteLattice.Basic

namespace CShell

open Lib

/-! ## find_frecency_match -/

instance : DecidablePred InRange := fun z => inferInstanceAs (Decidable (_ ≤ z ∧ z ≤ _))

/-- What an entry counts. -/
def FrecencyEntry.value (e : FrecencyEntry) : ℤ := e.frequency * 1000 + e.lastVisit

/-- `score`, if it can be computed. -/
def FrecencyEntry.score (e : FrecencyEntry) : Option ℤ :=
  if InRange (e.frequency * 1000) ∧ InRange e.value then some e.value else none

/-- `best_score` and `best_index`, where `none` is -1. -/
structure BestMatch where
  score : ℤ
  index : Option ℕ

/-- `strstr` finds the name and `access` the path. -/
def Matches (present : Str → Bool) (name path : Str) : Bool := name <:+: path && present path

/-- The loop, from entry `i` on. -/
def Frecency.findLoop (present : Str → Bool) (name : Str) :
    List FrecencyEntry → ℕ → BestMatch → Option BestMatch
  | [], _, best => some best
  | e :: es, i, best =>
    if Matches present name e.path then
      match e.score with
      | none => none
      | some score =>
        findLoop present name es (i + 1)
          (if best.index = none ∨ best.score < score then ⟨score, some i⟩ else best)
    else findLoop present name es (i + 1) best

/-- `find_frecency_match`: the path if it returns 1, `none` if it returns 0. -/
def Frecency.findFrecencyMatch (present : Str → Bool) (name : Str) (t : Frecency) :
    Option (Option Str) :=
  (findLoop present name t.entries 0 ⟨-1, none⟩).map fun best =>
    (best.index.bind (t.entries[·]?)).map FrecencyEntry.path

/-- The entries that take part. -/
def matching (present : Str → Bool) (name : Str) (es : List FrecencyEntry) : List FrecencyEntry :=
  es.filter fun e => Matches present name e.path

theorem matching_concat_of_matches {present : Str → Bool} {name : Str} {e : FrecencyEntry}
    (es : List FrecencyEntry) (h : Matches present name e.path) :
    matching present name (es ++ [e]) = matching present name es ++ [e] := by
  simp [matching, h]

theorem matching_concat_of_not_matches {present : Str → Bool} {name : Str} {e : FrecencyEntry}
    (es : List FrecencyEntry) (h : ¬Matches present name e.path) :
    matching present name (es ++ [e]) = matching present name es := by
  simp [matching, h]

/-- The state of the loop stands for this entry, if any. -/
def BestMatch.IsFor (entries : List FrecencyEntry) (best : BestMatch) :
    Option FrecencyEntry → Prop
  | none => best.index = none
  | some e => ∃ i, best.index = some i ∧ entries[i]? = some e ∧ best.score = e.value

/-- The loop finds the first of the entries with the highest score. -/
theorem Frecency.findLoop_eq {present : Str → Bool} {name : Str} {es : List FrecencyEntry}
    (done : List FrecencyEntry) {best : BestMatch}
    (hs : ∀ e ∈ es, Matches present name e.path → e.score = some e.value)
    (hb : best.IsFor (done ++ es)
      ((matching present name done).argmax FrecencyEntry.value)) :
    ∃ best', findLoop present name es done.length best = some best' ∧
      best'.IsFor (done ++ es)
        ((matching present name (done ++ es)).argmax FrecencyEntry.value) := by
  induction es generalizing done best with
  | nil => exact ⟨best, rfl, by simpa using hb⟩
  | cons e es ih =>
    rw [List.forall_mem_cons] at hs
    have happ : done ++ e :: es = done ++ [e] ++ es := by simp
    have hlen : (done ++ [e]).length = done.length + 1 := by simp
    rw [happ] at hb ⊢
    rw [findLoop]
    by_cases hm : Matches present name e.path
    · rw [if_pos hm, hs.1 hm]
      simp only
      rw [← hlen]
      refine ih _ hs.2 ?_
      have hget : (done ++ [e] ++ es)[done.length]? = some e := by simp
      rw [matching_concat_of_matches _ hm, List.argmax_concat]
      generalize (matching present name done).argmax FrecencyEntry.value = c at hb ⊢
      rcases c with _ | c
      · rw [if_pos (.inl hb)]
        exact ⟨_, rfl, hget, rfl⟩
      · obtain ⟨i, hi, hgi, hsc⟩ := hb
        have hcond : (best.index = none ∨ best.score < e.value) ↔ c.value < e.value := by
          simp [hi, hsc]
        simp only [hcond]
        split
        · exact ⟨_, rfl, hget, rfl⟩
        · exact ⟨i, hi, hgi, hsc⟩
    · rw [if_neg hm, ← hlen]
      refine ih _ hs.2 ?_
      rwa [matching_concat_of_not_matches _ hm]

theorem Frecency.findFrecencyMatch_eq {present : Str → Bool} {name : Str} {t : Frecency}
    (hs : ∀ e ∈ t.entries, Matches present name e.path → e.score = some e.value) :
    t.findFrecencyMatch present name =
      some (((matching present name t.entries).argmax FrecencyEntry.value).map
        FrecencyEntry.path) := by
  have hinit : (⟨-1, none⟩ : BestMatch).IsFor ([] ++ t.entries) none := rfl
  obtain ⟨best, hbest, hfor⟩ := findLoop_eq [] hs hinit
  rw [List.length_nil] at hbest
  rw [List.nil_append] at hfor
  rw [findFrecencyMatch, hbest, Option.map_some, Option.some.injEq]
  generalize (matching present name t.entries).argmax FrecencyEntry.value = e at hfor ⊢
  rcases e with _ | e
  · have hidx : best.index = none := hfor
    rw [hidx]
    rfl
  · obtain ⟨i, hi, hget, -⟩ := hfor
    rw [hi, Option.bind_some, hget]

/-! ## The table of a sequence of visits -/

/-- `record_visit` for one path after the other. -/
def Frecency.recordVisits (visits : List Str) (t : Frecency) : Option Frecency :=
  visits.foldlM (fun t path => (t.recordVisit path).map (·.1)) t

/-- What the table holds of a path. -/
def entryOf (visits : List Str) (path : Str) : FrecencyEntry :=
  ⟨path, visits.count path, lastIndex path visits⟩

/-- The table of a sequence of visits: the first distinct paths, as many as there is room for. -/
def tableOf (visits : List Str) : Frecency :=
  ⟨(firstDistinct maxEntries visits).map (entryOf visits), visits.length⟩

/-- A visit to another path leaves an entry as it is. -/
theorem entryOf_concat_of_ne {visits : List Str} {p q : Str} (h : q ≠ p) :
    entryOf (visits ++ [p]) q = entryOf visits q := by
  have hc : (visits ++ [p]).count q = visits.count q := by
    simp [List.count_append, h.symm]
  rw [entryOf, entryOf, hc, lastIndex_concat_of_ne h]

theorem map_entryOf_concat (visits : List Str) {ps : List Str} {p : Str} (h : p ∉ ps) :
    ps.map (entryOf (visits ++ [p])) = ps.map (entryOf visits) := by
  refine List.map_congr_left ?_
  intro q hq
  refine entryOf_concat_of_ne ?_
  rintro rfl
  exact h hq

theorem entryOf_concat_self (visits : List Str) (p : Str) :
    entryOf (visits ++ [p]) p = ⟨p, visits.count p + 1, visits.length + 1⟩ := by
  rw [entryOf, lastIndex_concat_self]
  simp

/-- The entries of other paths are not visited. -/
theorem updateFirst_map_entryOf (visits : List Str) {ps : List Str} {p : Str} (now : ℤ)
    (h : p ∉ ps) :
    updateFirst (FrecencyEntry.visit p now) (ps.map (entryOf visits)) = none := by
  rw [updateFirst_eq_none, List.forall_mem_map]
  intro q hq
  have hne : q ≠ p := by
    rintro rfl
    exact h hq
  simp [FrecencyEntry.visit, entryOf, hne]

/-- A visit to a path in the table. -/
theorem updateFirst_tableOf {visits : List Str} {p : Str} (h : p ∈ firstDistinct maxEntries visits)
    (hlen : (visits.length : ℤ) < llongMax) :
    updateFirst (FrecencyEntry.visit p (visits.length + 1)) (tableOf visits).entries =
      some ((tableOf (visits ++ [p])).entries, true) := by
  obtain ⟨pre, post, hkept⟩ := List.append_of_mem h
  have hnd := nodup_firstDistinct maxEntries visits
  rw [hkept, List.nodup_append, List.nodup_cons] at hnd
  have hpre : p ∉ pre := fun hp => hnd.2.2 p hp p List.mem_cons_self rfl
  have hfreq : (visits.count p : ℤ) ≠ llongMax := by
    have := List.count_le_length (a := p) (l := visits)
    omega
  have hvisit : FrecencyEntry.visit p (visits.length + 1) (entryOf visits p) =
      some (entryOf (visits ++ [p]) p, true) := by
    rw [entryOf_concat_self]
    simp [FrecencyEntry.visit, entryOf, hfreq]
  simp only [tableOf, firstDistinct_concat_of_mem (mem_of_mem_firstDistinct h), hkept,
    List.map_append, List.map_cons]
  rw [updateFirst_append_of_none (updateFirst_map_entryOf _ _ hpre), updateFirst, hvisit,
    map_entryOf_concat _ hpre, map_entryOf_concat _ hnd.2.1.1]
  rfl

theorem recordVisit_tableOf {visits : List Str} {p : Str}
    (hlen : ((visits ++ [p]).length : ℤ) ≤ llongMax) :
    ∃ saved, (tableOf visits).recordVisit p = some (tableOf (visits ++ [p]), saved) := by
  have hnow : (visits.length : ℤ) < llongMax := by
    rw [List.length_append, List.length_singleton] at hlen
    omega
  have hcounter : ((visits ++ [p]).length : ℤ) = visits.length + 1 := by simp
  have hmax : (tableOf visits).visitCounter ≠ llongMax := ne_of_lt hnow
  rw [Frecency.recordVisit, if_neg hmax]
  by_cases hp : p ∈ firstDistinct maxEntries visits
  · refine ⟨true, ?_⟩
    have hu := updateFirst_tableOf hp hnow
    simp only [tableOf, hcounter] at hu ⊢
    rw [hu]
    rfl
  have hu := updateFirst_map_entryOf visits (visits.length + 1) hp
  have hmap := map_entryOf_concat visits hp
  simp only [tableOf, hu, List.length_map, hcounter]
  by_cases hroom : (firstDistinct maxEntries visits).length < maxEntries
  · have hnew := notMem_of_notMem_firstDistinct hp hroom
    refine ⟨true, ?_⟩
    rw [if_neg (Nat.not_le.2 hroom), firstDistinct_concat_of_room hp hroom, List.map_append, hmap,
      List.map_singleton, entryOf_concat_self, List.count_eq_zero_of_not_mem hnew]
    rfl
  · refine ⟨false, ?_⟩
    rw [if_pos (Nat.not_lt.1 hroom), firstDistinct_concat_of_full (Nat.not_lt.1 hroom), hmap]

theorem Frecency.recordVisits_eq {visits : List Str} (hlen : (visits.length : ℤ) ≤ llongMax) :
    empty.recordVisits visits = some (tableOf visits) := by
  induction visits using List.reverseRecOn with
  | nil => rfl
  | append_singleton visits p ih =>
    have hlt : (visits.length : ℤ) ≤ llongMax := by
      rw [List.length_append, List.length_singleton] at hlen
      omega
    obtain ⟨saved, hr⟩ := recordVisit_tableOf hlen
    have ih := ih hlt
    rw [recordVisits] at ih
    rw [recordVisits, List.foldlM_append, ih]
    simp [hr]

/-! ## The best match -/

/-- The rank of a path. -/
def visitScore (visits : List Str) (path : Str) : ℕ :=
  1000 * visits.count path + lastIndex path visits

/-- What there is to choose from. -/
def candidates (present : Str → Bool) (name : Str) (visits : List Str) : List Str :=
  (firstDistinct maxEntries visits).filter (Matches present name)

/-- The best of the candidates, the one visited first if there are several. -/
structure IsBest (present : Str → Bool) (name : Str) (visits : List Str) (p : Str) : Prop where
  mem : p ∈ candidates present name visits
  max : ∀ q ∈ candidates present name visits, visitScore visits q ≤ visitScore visits p
  first : ∀ q ∈ candidates present name visits, visitScore visits q = visitScore visits p →
    visits.idxOf p ≤ visits.idxOf q

section
variable {present : Str → Bool} {name : Str} {visits : List Str}

theorem IsBest.unique {p q : Str} (hp : IsBest present name visits p)
    (hq : IsBest present name visits q) : p = q := by
  have hscore : visitScore visits q = visitScore visits p :=
    Nat.le_antisymm (hp.max q hq.mem) (hq.max p hp.mem)
  have hidx : visits.idxOf p = visits.idxOf q :=
    Nat.le_antisymm (hp.first q hq.mem hscore) (hq.first p hp.mem hscore.symm)
  exact (List.idxOf_inj (mem_of_mem_firstDistinct (List.mem_of_mem_filter hp.mem))).1 hidx

theorem value_entryOf (visits : List Str) (p : Str) :
    (entryOf visits p).value = visitScore visits p := by
  simp [FrecencyEntry.value, entryOf, visitScore, mul_comm]

theorem score_entryOf {p : Str} (h : (visitScore visits p : ℤ) ≤ llongMax) :
    (entryOf visits p).score = some (entryOf visits p).value := by
  have hv := value_entryOf visits p
  have hmin : llongMin ≤ 0 := by decide
  rw [FrecencyEntry.score, if_pos]
  constructor
  · simp only [entryOf, visitScore] at h ⊢
    constructor <;> omega
  · rw [hv]
    constructor <;> omega

theorem matching_tableOf :
    matching present name (tableOf visits).entries =
      (candidates present name visits).map (entryOf visits) :=
  List.filter_map

/-- The entries are in the order of the first visits. -/
theorem pairwise_idxOf_entryOf :
    ((candidates present name visits).map (entryOf visits)).Pairwise fun e e' =>
      visits.idxOf e.path < visits.idxOf e'.path := by
  rw [List.pairwise_map]
  exact ((pairwise_idxOf_eraseDups visits).sublist (List.take_sublist _ _)).sublist
    List.filter_sublist

/-- The entry the loop finds is that of the best path. -/
theorem isBest_of_argmax {e : FrecencyEntry}
    (h : ((candidates present name visits).map (entryOf visits)).argmax FrecencyEntry.value =
      some e) : IsBest present name visits e.path := by
  obtain ⟨he, hmax, hfirst⟩ := List.argmax_eq_some_iff.1 h
  obtain ⟨p, hp, rfl⟩ := List.mem_map.1 he
  rw [List.forall_mem_map] at hmax hfirst
  simp only [value_entryOf, Int.ofNat_le] at hmax hfirst
  refine ⟨hp, hmax, ?_⟩
  intro q hq heq
  have hidx := hfirst q hq (Nat.le_of_eq heq.symm)
  rcases eq_or_rel_of_idxOf_le pairwise_idxOf_entryOf he (List.mem_map_of_mem hq) hidx with h | h
  · exact Nat.le_of_eq (congrArg (visits.idxOf ·.path) h)
  · exact Nat.le_of_lt h

end

/-- **The match is the best one**: after any visits `find_frecency_match` finds the present path with
    the highest score that contains the name, the first visited of them, and none iff there is none. -/
theorem find_is_best (visits : List Str) (name : Str) (present : Str → Bool)
    (hlen : (visits.length : ℤ) ≤ llongMax)
    (hscore : ∀ p ∈ candidates present name visits, (visitScore visits p : ℤ) ≤ llongMax) :
    ∃ t r, Frecency.empty.recordVisits visits = some t ∧
      t.findFrecencyMatch present name = some r ∧
      (r = none ↔ ∀ p ∈ firstDistinct maxEntries visits, ¬(name <:+: p ∧ present p)) ∧
      ∀ p, r = some p ↔ IsBest present name visits p := by
  have hs : ∀ e ∈ (tableOf visits).entries, Matches present name e.path →
      e.score = some e.value := by
    rw [tableOf, List.forall_mem_map]
    intro p hp hm
    exact score_entryOf (hscore p (List.mem_filter.2 ⟨hp, hm⟩))
  refine ⟨_, _, Frecency.recordVisits_eq hlen, Frecency.findFrecencyMatch_eq hs, ?_, ?_⟩
  · rw [Option.map_eq_none_iff, List.argmax_eq_none, matching_tableOf, List.map_eq_nil_iff,
      candidates, List.filter_eq_nil_iff]
    simp [Matches]
  · intro p
    rw [matching_tableOf]
    constructor
    · intro h
      obtain ⟨e, he, rfl⟩ := Option.map_eq_some_iff.1 h
      exact isBest_of_argmax he
    · intro h
      have hne : ((candidates present name visits).map (entryOf visits)).argmax
          FrecencyEntry.value ≠ none := by
        rw [Ne, List.argmax_eq_none, List.map_eq_nil_iff]
        exact List.ne_nil_of_mem h.mem
      obtain ⟨e, he⟩ := Option.ne_none_iff_exists'.1 hne
      rw [he, Option.map_some, (isBest_of_argmax he).unique h]

/-- Two directories, one of them visited twice. -/
def threeVisits : List Str := [str "/src", str "/tmp/src", str "/src"]

theorem find_is_best_threeVisits :
    (threeVisits.length : ℤ) ≤ llongMax ∧
      (∀ p ∈ candidates (fun _ => true) (str "sr") threeVisits,
        (visitScore threeVisits p : ℤ) ≤ llongMax) ∧
      ∃ t, Frecency.empty.recordVisits threeVisits = some t ∧
        t.findFrecencyMatch (fun _ => true) (str "sr") = some (some (str "/src")) := by
  have hlen : (threeVisits.length : ℤ) ≤ llongMax := by decide
  have hscore : ∀ p ∈ candidates (fun _ => true) (str "sr") threeVisits,
      (visitScore threeVisits p : ℤ) ≤ llongMax := by decide
  have hbest : IsBest (fun _ => true) (str "sr") threeVisits (str "/src") :=
    ⟨by decide, by decide, by decide⟩
  obtain ⟨t, r, ht, hr, -, hiff⟩ := find_is_best threeVisits (str "sr") (fun _ => true) hlen hscore
  exact ⟨hlen, hscore, t, ht, hr.trans (congrArg some ((hiff _).2 hbest))⟩

end CShell
