/-
  C-Shell formalization — a sequence `s1 ; s2 ; … ; sn` as separate lines.

  A line of one segment is given to the built-in its first word names, or is
  executed (`handed`, `executeLine_single`).  `main` looks at the first word
  of the whole line only and `sequence_command` stops at a command that is not
  found, so that a sequence does the same as its segments one by one only in
  the two cases of `executeLine_sequence_iff`.
-/
import CShell.Shell.Segments
import CShell.Shell.Parser

namespace CShell

open Lib

/-! ## Single segments -/

/-- What a line of the tokens `seg` alone is handed to. -/
def handed (seg : List Token) : Except Fault Event :=
  match builtinOf seg with
  | some b => .ok (.builtin b (given b seg))
  | none => build (seg, false)

theorem skipSegment_eq_nil : ∀ {ts : List Token}, (∀ t ∈ ts, ¬t.endsSegment) → skipSegment ts = []
  | [], _ => rfl
  | t :: ts, h => by
    rw [skipSegment_cons (h t (by simp))]
    exact skipSegment_eq_nil fun u hu => h u (by simp [hu])

theorem segments_single {ts : List Token} (hne : ts ≠ []) (h : ∀ t ∈ ts, ¬t.endsSegment) :
    segments ts = [(ts, false)] := by
  rw [segments_eq hne, segment_eq_self h, skipSegment_eq_nil h]
  rfl

section
variable {σ : Type} (env : Env σ)

theorem executeLine_builtin {tokens : List Token} {b : Builtin} (hb : builtinOf tokens = some b) (s : σ) :
    ∃ s', executeLine env tokens ⟨s, []⟩ = .ok ⟨s', [.builtin b (given b tokens)]⟩ := by
  rw [executeLine, dispatch, hb]
  exact ⟨_, rfl⟩

theorem executeLine_sequence {tokens : List Token} (hb : builtinOf tokens = none) (s : σ) :
    executeLine env tokens ⟨s, []⟩ = (runSegments env (segments tokens) ⟨s, []⟩ >>= fun r =>
      .ok ⟨env.drainBackgroundNotifications r.2.state, r.2.log⟩) := by
  rw [executeLine, dispatch, hb]
  simp only [sequenceCommand_eq]
  rcases runSegments env (segments tokens) ⟨s, []⟩ with e | r <;> rfl

/-- A line of one segment is handed to `handed`, whatever the state. -/
theorem executeLine_single {seg : List Token} (hne : seg ≠ []) (h : ∀ t ∈ seg, ¬t.endsSegment)
    {s : σ} {w : World σ} (hw : executeLine env seg ⟨s, []⟩ = .ok w) :
    ∃ e, handed seg = .ok e ∧ w.log = [e] := by
  rw [executeLine, dispatch] at hw
  rw [handed]
  cases hb : builtinOf seg with
  | some b =>
    rw [hb] at hw
    cases hw
    exact ⟨_, rfl, rfl⟩
  | none =>
    simp only [hb, sequenceCommand_eq, segments_single hne h, runSegments] at hw
    rcases hbuild : build (seg, false) with e | e
    · rw [hbuild] at hw; cases hw
    refine ⟨e, rfl, ?_⟩
    rcases hl : launch env e s with e' | ⟨res, s'⟩
    · simp [hbuild, hl] at hw
    · simp only [hbuild, hl, ok_bind] at hw
      by_cases hres : res = 0
      · simp only [hres, ne_eq, not_true_eq_false, ↓reduceIte] at hw; cases hw; rfl
      · simp only [hres, ne_eq, not_false_eq_true, ↓reduceIte] at hw; cases hw; rfl

end

/-! ## The segments of a sequence -/

theorem build_simple {p : List Token × Bool} (hpipe : .op .pipe ∉ p.1) (hbg : p.2 = false) :
    build p = if (splitInputs Token.value isEnd p.1).Fits then .ok (.simple false (builtOf p.1))
      else .error .overrun := by
  have hp : hasPipeline p.1 = false := by
    rw [Bool.eq_false_iff, Ne, hasPipeline_iff]
    exact fun hmem => hpipe ((segment_isPrefix p.1).subset hmem)
  rw [build, hp, hbg, parseSimple_eq]
  simp only [Bool.false_eq_true, ↓reduceIte]
  split <;> rfl

theorem segment_append_skipSegment : ∀ ts : List Token, segment ts ++ skipSegment ts = ts
  | [] => rfl
  | t :: ts => by
    by_cases ht : t.endsSegment
    · rw [segment_cons_of_ends ht, skipSegment_of_ends ht]; rfl
    · rw [segment_cons ht, skipSegment_cons ht, List.cons_append, segment_append_skipSegment ts]

theorem endsSegment_of_skipSegment {t : Token} {us : List Token} : ∀ {ts : List Token},
    skipSegment ts = t :: us → t.endsSegment
  | u :: ts, h => by
    by_cases hu : u.endsSegment
    · rw [skipSegment_of_ends hu] at h
      exact (List.cons.inj h).1 ▸ hu
    · rw [skipSegment_cons hu] at h
      exact endsSegment_of_skipSegment h

/-- A sequence of one segment is that segment: nothing follows it. -/
theorem eq_of_segments_single {ts : List Token} (hparse : parsing ts) (hamp : .op .amp ∉ ts)
    {p : List Token × Bool} (h : segments ts = [p]) : p.1 = ts := by
  have hne : ts ≠ [] := by rintro rfl; cases h
  rw [segments_eq hne] at h
  obtain ⟨rfl, htail⟩ := List.cons.inj h
  have hskip : (skipSegment ts).tail = [] := by
    by_contra hne
    rw [segments_eq hne] at htail
    cases htail
  have hsplit := segment_append_skipSegment ts
  rcases hs : skipSegment ts with _ | ⟨t, us⟩
  · rw [hs, List.append_nil] at hsplit
    exact hsplit
  · -- the token after the segment would be the last one of the line
    obtain rfl : us = [] := by simpa [hs] using hskip
    have ht := endsSegment_of_skipSegment hs
    rw [hs] at hsplit
    simp only [Token.endsSegment, Bool.or_eq_true, decide_eq_true_eq] at ht
    rcases ht with rfl | rfl
    · exact absurd (last_of_parsing hparse .semi (by rw [← hsplit]; simp)) (by decide)
    · exact absurd (by rw [← hsplit]; simp) hamp

section
variable {σ : Type} (env : Env σ)

/-- The line is handed to what its segments, entered one by one, are handed
    to. -/
def SameAsLines (tokens : List Token) (s : σ) : Prop :=
  ∃ w es, executeLine env tokens ⟨s, []⟩ = .ok w ∧ (segments tokens).mapM (fun p => handed p.1) = .ok es ∧
    w.log = es

/-- The line is a built-in alone, or a sequence of commands that are no
    built-ins, fit the arrays of the builders and, but for the last one, are
    found when their turn comes. -/
def Sequential (tokens : List Token) (s : σ) : Prop :=
  ((segments tokens).length = 1 ∧ builtinOf tokens ≠ none) ∨
    ((∀ p ∈ segments tokens, builtinOf p.1 = none ∧ (splitInputs Token.value isEnd p.1).Fits) ∧
      Runs env ((segments tokens).map fun p => .simple false (builtOf p.1)) s)

theorem build_ne_builtin {p : List Token × Bool} {b : Builtin} {ts : List Token} :
    build p ≠ .ok (.builtin b ts) := by
  rw [build]
  split
  · rcases parsePipeline Token.value id p.1 with e | r <;> simp [Except.map]
  · rcases parseSimple p.1 with e | r <;> simp [Except.map]

/-- The first word of a line is that of its first segment. -/
theorem builtinOf_segment {tokens : List Token} (hparse : parsing tokens) :
    builtinOf (segment tokens) = builtinOf tokens := by
  rcases (parsing_iff tokens).1 hparse with rfl | h
  · rfl
  · obtain ⟨w, us, rfl, -⟩ := Grammar.mem_word_mul.1 h
    rw [segment_cons (by simp [Token.endsSegment])]
    rfl

/-- A line that begins with a built-in is given to it as a whole. -/
theorem sameAsLines_builtin {tokens : List Token} (hparse : parsing tokens) (hamp : .op .amp ∉ tokens)
    {b : Builtin} (hb : builtinOf tokens = some b) (s : σ) :
    SameAsLines env tokens s ↔ (segments tokens).length = 1 := by
  obtain ⟨s', hexec⟩ := executeLine_builtin env hb s
  constructor
  · rintro ⟨w, es, hw, hes, rfl⟩
    rw [hexec] at hw
    cases hw
    exact (mapM_eq_ok.1 hes).length_eq
  · intro hlen
    obtain ⟨p, hp⟩ := List.length_eq_one_iff.1 hlen
    have hp' := eq_of_segments_single hparse hamp hp
    refine ⟨_, _, hexec, ?_, rfl⟩
    rw [hp, mapM_eq_ok]
    refine .cons ?_ .nil
    rw [hp', handed, hb]

/-- Any other line is given to `sequence_command`. -/
theorem sameAsLines_sequence {tokens : List Token} (hb : builtinOf tokens = none) (s : σ) :
    SameAsLines env tokens s ↔ ∃ res w es, runSegments env (segments tokens) ⟨s, []⟩ = .ok (res, w) ∧
      (segments tokens).mapM (fun p => handed p.1) = .ok es ∧ w.log = es := by
  rw [SameAsLines, executeLine_sequence env hb]
  rcases runSegments env (segments tokens) ⟨s, []⟩ with e | ⟨res, w⟩
  · simp
  · simp [and_assoc]

/-- **When a sequence is handed on like its segments.**  For an accepted line
    without `&` and `|`, in every state. -/
theorem executeLine_sequence_iff (tokens : List Token) (s : σ) (hparse : parsing tokens = true)
    (hamp : .op .amp ∉ tokens) (hpipe : .op .pipe ∉ tokens) :
    SameAsLines env tokens s ↔ Sequential env tokens s := by
  have hsegs : ∀ p ∈ segments tokens, .op .pipe ∉ p.1 ∧ p.2 = false := fun p hp =>
    ⟨fun h => hpipe ((mem_segments hp).1 h), Bool.eq_false_iff.2 fun h => hamp ((mem_segments hp).2.2 h)⟩
  cases hb : builtinOf tokens with
  | some b =>
    rw [sameAsLines_builtin env hparse hamp hb, Sequential, hb]
    refine ⟨fun h => Or.inl ⟨h, by simp⟩, ?_⟩
    rintro (⟨h, -⟩ | ⟨h, -⟩)
    · exact h
    · -- the first segment begins with the built-in
      have hne : tokens ≠ [] := by rintro rfl; cases hb
      have hfirst := (h _ (segments_eq hne ▸ List.mem_cons_self)).1
      rw [builtinOf_segment hparse, hb] at hfirst
      cases hfirst
  | none =>
    rw [sameAsLines_sequence env hb, Sequential, hb]
    simp only [ne_eq, not_true_eq_false, and_false, false_or]
    by_cases hall : ∀ p ∈ segments tokens, builtinOf p.1 = none
    · have hhanded : (segments tokens).mapM (fun p => handed p.1) = (segments tokens).mapM build :=
        mapM_congr fun p hp => by rw [handed, hall p hp, ← (hsegs p hp).2]
      have hrun := runSegments_iff env (segments tokens) ⟨s, []⟩
      simp only [List.nil_append] at hrun
      rw [hhanded, hrun]
      simp only [mapM_eq_ok_of_ite fun p hp => build_simple (hsegs p hp).1 (hsegs p hp).2]
      constructor
      · rintro ⟨_, ⟨hfit, rfl⟩, hruns⟩
        exact ⟨fun p hp => ⟨hall p hp, hfit p hp⟩, hruns⟩
      · rintro ⟨hfit, hruns⟩
        exact ⟨_, ⟨fun p hp => (hfit p hp).2, rfl⟩, hruns⟩
    · refine iff_of_false ?_ fun h => hall fun p hp => (h.1 p hp).1
      rintro ⟨res, w, es, hrun, hes, rfl⟩
      -- no run of `sequence_command` calls the built-in of a later segment
      simp only [not_forall] at hall
      obtain ⟨p, hp, hbp⟩ := hall
      obtain ⟨b, hbp⟩ := Option.ne_none_iff_exists'.1 hbp
      obtain ⟨e, he, hhanded⟩ := exists_of_mapM_eq_ok hes hp
      obtain ⟨done, es, -, hbuild, hlog⟩ := runSegments_log env _ _ _ _ hrun
      rw [List.nil_append] at hlog
      obtain ⟨q, -, hq⟩ := exists_of_mem_mapM hbuild (hlog ▸ he)
      rw [handed, hbp] at hhanded
      exact build_ne_builtin (hq.trans hhanded.symm)

end

/-- `a ; b x` where `a` is in the current directory. -/
theorem executeLine_sequence_found :
    SameAsLines (quietEnv [str "./a"]) [.word (str "a"), .op .semi, .word (str "b"), .word (str "x")] () := by
  refine (executeLine_sequence_iff (quietEnv [str "./a"]) _ () rfl (by decide) (by decide)).2 (Or.inr ⟨?_, ?_⟩)
  · decide
  · refine ⟨⟨Or.inr (Or.inl (by decide)), fun _ _ => ?_⟩, ⟨Or.inr (Or.inr (by simp [quietEnv])), by simp⟩, trivial⟩
    rw [Found, if_neg (by decide), if_neg (by decide)]
    exact Or.inl (by decide)

/-- `hop /tmp ; reveal ; peek file.txt` is given to `hop` as a whole; and in
    `a ; b`, where `a` is not found, `b` is not executed. -/
theorem sequence_not_sameAsLines :
    parsing [.word (str "hop"), .word (str "/tmp"), .op .semi, .word (str "reveal"), .op .semi,
        .word (str "peek"), .word (str "file.txt")] = true ∧
      ¬SameAsLines (quietEnv []) [.word (str "hop"), .word (str "/tmp"), .op .semi, .word (str "reveal"),
        .op .semi, .word (str "peek"), .word (str "file.txt")] () ∧
      parsing [.word (str "a"), .op .semi, .word (str "b")] = true ∧
      ¬SameAsLines (quietEnv []) [.word (str "a"), .op .semi, .word (str "b")] () := by
  refine ⟨rfl, ?_, rfl, ?_⟩
  · rintro ⟨w, es, hw, hes, rfl⟩
    cases hw
    cases hes
  · rintro ⟨w, es, hw, hes, rfl⟩
    cases hw
    cases hes

end CShell
