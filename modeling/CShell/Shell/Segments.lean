/-
  C-Shell formalization — a line as its segments.

  `sequence_command` walks one list of tokens, and each function it calls
  finds the end of its segment again.  `sequenceCommand_eq` says that this
  amounts to a run over the segments of the line (`segments`), each of which is
  all that is seen of the line (`runSegments`).
-/
import CShell.Shell.Sequence
import CShell.Shell.Stages

namespace CShell

open Lib

/-! ## The segments of a line -/

/-- The segments of a line, whose first one begins with `seg`; a segment is in
    the background iff `OP_AMP` ends it. -/
def segmentsFrom (seg : List Token) : List Token → List (List Token × Bool)
  | [] => if seg = [] then [] else [(seg, false)]
  | .op .semi :: ts => (seg, false) :: segmentsFrom [] ts
  | .op .amp :: ts => (seg, true) :: segmentsFrom [] ts
  | t :: ts => segmentsFrom (seg ++ [t]) ts

/-- The segments of a line, each with whether `&` ends it. -/
def segments (tokens : List Token) : List (List Token × Bool) := segmentsFrom [] tokens

theorem segmentsFrom_cons {t : Token} (ht : ¬t.endsSegment) (seg ts : List Token) :
    segmentsFrom seg (t :: ts) = segmentsFrom (seg ++ [t]) ts := by
  cases t with
  | word w => rfl
  | op o => cases o <;> first | rfl | exact absurd rfl ht

theorem skipSegment_cons {t : Token} (ht : ¬t.endsSegment) (ts : List Token) :
    skipSegment (t :: ts) = skipSegment ts := if_neg ht

theorem skipSegment_of_ends {t : Token} (ht : t.endsSegment) (ts : List Token) :
    skipSegment (t :: ts) = t :: ts := if_pos ht

/-- The first segment ends where `sequence_command` stops skipping. -/
theorem segmentsFrom_eq : ∀ seg ts : List Token, seg ++ ts ≠ [] →
    segmentsFrom seg ts = (seg ++ segment ts, decide ((skipSegment ts).head? = some (.op .amp))) ::
      segments (skipSegment ts).tail
  | seg, [], h => by
    have hseg : seg ≠ [] := by simpa using h
    simp [segmentsFrom, segments, segment, skipSegment, hseg]
  | seg, t :: ts, _ => by
    by_cases ht : t.endsSegment
    · rw [segment_cons_of_ends ht, skipSegment_of_ends ht, List.append_nil]
      simp only [Token.endsSegment, Bool.or_eq_true, decide_eq_true_eq] at ht
      rcases ht with rfl | rfl <;> rfl
    · rw [segmentsFrom_cons ht, segment_cons ht, skipSegment_cons ht, segmentsFrom_eq _ ts (by simp),
        List.append_assoc, List.singleton_append]

theorem segments_eq {ts : List Token} (h : ts ≠ []) :
    segments ts = (segment ts, decide ((skipSegment ts).head? = some (.op .amp))) ::
      segments (skipSegment ts).tail :=
  segmentsFrom_eq [] ts h

theorem length_skipSegment : ∀ ts : List Token, (skipSegment ts).length ≤ ts.length
  | [] => Nat.le_refl _
  | t :: ts => by
    by_cases ht : t.endsSegment
    · rw [skipSegment_of_ends ht]
    · rw [skipSegment_cons ht]; exact Nat.le_succ_of_le (length_skipSegment ts)

theorem segment_eq_self {ts : List Token} (h : ∀ t ∈ ts, ¬t.endsSegment) : segment ts = ts := by
  rw [segment, List.takeWhile_eq_self_iff]
  simpa using h

/-- A `;` or `&` ends the segment. -/
theorem exists_segmentsFrom_cons {t : Token} (ht : t.endsSegment) (seg ts : List Token) :
    ∃ b, segmentsFrom seg (t :: ts) = (seg, b) :: segmentsFrom [] ts ∧ (b = true → t = .op .amp) := by
  simp only [Token.endsSegment, Bool.or_eq_true, decide_eq_true_eq] at ht
  rcases ht with rfl | rfl
  · exact ⟨false, rfl, by simp⟩
  · exact ⟨true, rfl, by simp⟩

theorem mem_segmentsFrom : ∀ {ts seg : List Token} {p : List Token × Bool}, p ∈ segmentsFrom seg ts →
    (∀ t ∈ p.1, t ∈ seg ∨ t ∈ ts ∧ ¬t.endsSegment) ∧ (p.2 = true → .op .amp ∈ ts)
  | [], seg, p, h => by
    rw [segmentsFrom] at h
    split at h
    · simp at h
    · obtain rfl := List.mem_singleton.1 h
      exact ⟨fun t ht => Or.inl ht, by simp⟩
  | t :: ts, seg, p, h => by
    by_cases ht : t.endsSegment
    · obtain ⟨b, hcons, hb⟩ := exists_segmentsFrom_cons ht seg ts
      rw [hcons, List.mem_cons] at h
      rcases h with rfl | h
      · exact ⟨fun u hu => Or.inl hu, fun h => by simp [hb h]⟩
      · obtain ⟨h1, h2⟩ := mem_segmentsFrom h
        refine ⟨fun u hu => Or.inr ?_, fun hp => List.mem_cons_of_mem _ (h2 hp)⟩
        exact (h1 u hu).elim (fun h => by simp at h) fun h => ⟨List.mem_cons_of_mem _ h.1, h.2⟩
    · rw [segmentsFrom_cons ht] at h
      obtain ⟨h1, h2⟩ := mem_segmentsFrom h
      refine ⟨fun u hu => ?_, fun hp => List.mem_cons_of_mem _ (h2 hp)⟩
      rcases h1 u hu with h | h
      · rcases List.mem_append.1 h with h | h
        · exact Or.inl h
        · obtain rfl := List.mem_singleton.1 h
          exact Or.inr ⟨List.mem_cons_self, ht⟩
      · exact Or.inr ⟨List.mem_cons_of_mem _ h.1, h.2⟩

theorem mem_segments {ts : List Token} {p : List Token × Bool} (h : p ∈ segments ts) :
    p.1 ⊆ ts ∧ (∀ t ∈ p.1, ¬t.endsSegment) ∧ (p.2 = true → .op .amp ∈ ts) := by
  obtain ⟨h1, h2⟩ := mem_segmentsFrom h
  simp only [List.not_mem_nil, false_or] at h1
  exact ⟨fun t ht => (h1 t ht).1, fun t ht => (h1 t ht).2, h2⟩

/-! ## What is seen of a line -/

theorem segment_segment (ts : List Token) : segment (segment ts) = segment ts := by
  simp [segment, List.takeWhile_takeWhile]

theorem hasPipeline_segment (ts : List Token) : hasPipeline (segment ts) = hasPipeline ts := by
  rw [Bool.eq_iff_iff, hasPipeline_iff, hasPipeline_iff, segment_segment]

theorem parsePipeline_segment (ts : List Token) :
    parsePipeline Token.value id (segment ts) = parsePipeline Token.value id ts := by
  rw [parsePipeline_eq, parsePipeline_eq, segment_segment]

theorem parseSimple_segment (ts : List Token) : parseSimple (segment ts) = parseSimple ts := by
  rw [parseSimple, parseSimple, parseInputRedirect, parseInputRedirect, redirectLoop_segment]

/-- What is built from a segment without a pipe, whatever its length. -/
def builtOf (seg : List Token) : Built :=
  let r := splitInputs Token.value isEnd seg
  if r.complete then
    match splitOutputs id r.argv with
    | none => .badOutput
    | some (argv, outputFiles) => .command ⟨argv, r.files, outputFiles⟩
  else .badInput

theorem parseSimple_eq (seg : List Token) :
    parseSimple seg =
      if (splitInputs Token.value isEnd seg).Fits then .ok (builtOf seg) else .error .overrun := by
  rw [parseSimple, parseInputRedirect, redirectLoop_start, Inputs.result, builtOf]
  generalize splitInputs Token.value isEnd seg = r
  obtain ⟨argv, files, complete⟩ := r
  by_cases hfit : (⟨argv, files, complete⟩ : Inputs Str).Fits
  · rw [if_pos hfit, if_pos hfit, ok_bind]
    cases complete with
    | false => rfl
    | true =>
      simp only [↓reduceIte, parseOutputRedirection_eq id (show argv.length < maxArgs from hfit.1), ok_bind]
      rcases splitOutputs id argv with _ | ⟨argv', outs⟩ <;> rfl
  · rw [if_neg hfit, if_neg hfit]; rfl

section
variable {σ : Type} (env : Env σ)

theorem execCommand_segment (ts : List Token) : execCommand env (segment ts) = execCommand env ts := by
  funext w
  rw [execCommand, execCommand, hasPipeline_segment, parsePipeline_segment, parseSimple_segment]

theorem execBackgroundSegment_segment (ts : List Token) :
    execBackgroundSegment env (segment ts) = execBackgroundSegment env ts := by
  funext w
  rw [execBackgroundSegment, execBackgroundSegment, hasPipeline_segment, parsePipeline_segment,
    execBackgroundCommand, execBackgroundCommand, parseSimple_segment]

/-! ## The run over the segments -/

/-- What is built for a segment. -/
def build (seg : List Token × Bool) : Except Fault Event :=
  if hasPipeline seg.1 then (parsePipeline Token.value id seg.1).map (.pipeline seg.2)
  else (parseSimple seg.1).map (.simple seg.2)

/-- What is done with it, and the result that decides whether the sequence
    goes on. -/
def launch : Event → σ → Except Fault (ℕ × σ)
  | .builtin b tokens, s => .ok (0, env.builtin b tokens s)
  | .pipeline background built, s => .ok (0, launchPipeline env background built s)
  | .simple false built, s => launchSimple env built s
  | .simple true built, s => (launchBackground env built s).map (0, ·)

/-- Run the segments one after the other, up to the first that fails. -/
def runSegments : List (List Token × Bool) → World σ → Except Fault (ℕ × World σ)
  | [], w => .ok (0, w)
  | seg :: segs, w => do
    let e ← build seg
    let (res, s) ← launch env e w.state
    let w : World σ := ⟨s, w.log ++ [e]⟩
    if res ≠ 0 then return (res, w) else runSegments segs w

theorem execCommand_eq (seg : List Token) (w : World σ) :
    execCommand env seg w = (do
      let e ← build (seg, false)
      let (res, s) ← launch env e w.state
      return (res, ⟨s, w.log ++ [e]⟩)) := by
  rw [execCommand, build]
  split
  · rcases parsePipeline Token.value id seg with e | r <;> rfl
  · rcases parseSimple seg with e | r <;> rfl

theorem execBackgroundSegment_eq (seg : List Token) (w : World σ) :
    execBackgroundSegment env seg w = (do
      let e ← build (seg, true)
      let (_, s) ← launch env e w.state
      return ⟨s, w.log ++ [e]⟩) := by
  rw [execBackgroundSegment, build]
  split
  · rcases parsePipeline Token.value id seg with e | r <;> rfl
  · rw [execBackgroundCommand]
    rcases parseSimple seg with e | r
    · rfl
    · simp only [ok_bind, Except.map, launch]
      rcases launchBackground env r w.state with e | s <;> rfl

/-- In the background the sequence goes on. -/
theorem launch_background {seg : List Token} {e : Event} (he : build (seg, true) = .ok e) {s s' : σ}
    {res : ℕ} (h : launch env e s = .ok (res, s')) : res = 0 := by
  rw [build] at he
  split at he
  · rcases hp : parsePipeline Token.value id seg with e' | r
    · rw [hp] at he; cases he
    · rw [hp] at he; cases he; cases h; rfl
  · rcases hp : parseSimple seg with e' | r
    · rw [hp] at he; cases he
    · rw [hp] at he
      cases he
      rcases hl : launchBackground env r s with e' | s'
      · rw [launch, hl] at h; cases h
      · rw [launch, hl] at h; cases h; rfl

theorem sequenceLoop_eq : ∀ (n : ℕ) (ts : List Token) (w : World σ), ts.length < n →
    sequenceLoop env n ts w = runSegments env (segments ts) w
  | n + 1, [], w, _ => rfl
  | n + 1, t :: ts, w, hn => by
    have hlen := length_skipSegment (t :: ts)
    have ih : ∀ w, sequenceLoop env n (skipSegment (t :: ts)).tail w = _ := fun w =>
      sequenceLoop_eq n _ w (by rw [List.length_tail, List.length_cons] at *; omega)
    rw [segments_eq (by simp), runSegments, sequenceLoop.eq_def]
    dsimp only
    rw [← execBackgroundSegment_segment, ← execCommand_segment, execBackgroundSegment_eq, execCommand_eq]
    by_cases hamp : (skipSegment (t :: ts)).head? = some (.op .amp)
    · simp only [hamp, ↓reduceIte, decide_true, ih]
      rcases hb : build (segment (t :: ts), true) with e | e
      · rfl
      rcases hl : launch env e w.state with e' | ⟨res, s⟩
      · simp only [ok_bind, hl]; rfl
      · obtain rfl := launch_background env hb hl
        simp only [ok_bind, hl]
        rfl
    · simp only [hamp, ↓reduceIte, decide_false, ih]
      rcases build (segment (t :: ts), false) with e | e
      · rfl
      rcases hl : launch env e w.state with e' | ⟨res, s⟩
      · simp only [ok_bind, hl]; rfl
      · simp only [ok_bind, hl]; rfl

/-- **The line is run segment by segment.** -/
theorem sequenceCommand_eq (ts : List Token) (w : World σ) :
    sequenceCommand env ts w = runSegments env (segments ts) w :=
  sequenceLoop_eq env _ ts w (Nat.lt_succ_self _)

/-- The events of a run are what is built for the segments it comes to. -/
theorem runSegments_log : ∀ (segs : List (List Token × Bool)) (w w' : World σ) (res : ℕ),
    runSegments env segs w = .ok (res, w') →
      ∃ done es, done <+: segs ∧ done.mapM build = .ok es ∧ w'.log = w.log ++ es
  | [], w, w', res, h => by
    cases h
    exact ⟨[], [], List.nil_prefix, rfl, by simp⟩
  | p :: segs, w, w', res, h => by
    rw [runSegments] at h
    rcases hb : build p with e | e
    · rw [hb] at h; cases h
    rcases hl : launch env e w.state with e' | ⟨res', s'⟩
    · simp [hb, hl] at h
    simp only [hb, hl, ok_bind] at h
    split at h
    · cases h
      exact ⟨[p], [e], List.prefix_append [p] segs, by rw [mapM_eq_ok]; exact .cons hb .nil, rfl⟩
    · obtain ⟨done, es, hpre, hdone, hlog⟩ := runSegments_log segs _ w' res h
      refine ⟨p :: done, e :: es, (List.cons_prefix_cons).2 ⟨rfl, hpre⟩, ?_, by simpa using hlog⟩
      rw [mapM_eq_ok] at hdone ⊢
      exact .cons hb hdone

/-! ## When every segment is launched -/

/-- The call can be made in state `s` and, if there are `more` segments, the
    sequence goes on after it.  Only the command of a segment without a pipe is
    resolved by the shell itself. -/
def Launches (e : Event) (more : Bool) (s : σ) : Prop :=
  match e with
  | .simple background (.command ⟨command :: _, _, _⟩) =>
    LookupFits (env.isExecutable s) env.path command ∧
      (background = false → more → Found (env.isExecutable s) env.path command)
  | _ => True

theorem launches_iff (e : Event) (more : Bool) (s : σ) :
    (∃ res s', launch env e s = .ok (res, s') ∧ (more → res = 0)) ↔ Launches env e more s := by
  match e with
  | .builtin b tokens => exact iff_of_true ⟨_, _, rfl, fun _ => rfl⟩ trivial
  | .pipeline bg built => exact iff_of_true ⟨_, _, rfl, fun _ => rfl⟩ trivial
  | .simple false .badInput => exact iff_of_true ⟨_, _, rfl, fun _ => rfl⟩ trivial
  | .simple true .badInput => exact iff_of_true ⟨_, _, rfl, fun _ => rfl⟩ trivial
  | .simple false .badOutput => exact iff_of_true ⟨_, _, rfl, fun _ => rfl⟩ trivial
  | .simple true .badOutput => exact iff_of_true ⟨_, _, rfl, fun _ => rfl⟩ trivial
  | .simple false (.command ⟨[], ins, outs⟩) => exact iff_of_true ⟨_, _, rfl, fun _ => rfl⟩ trivial
  | .simple true (.command ⟨[], ins, outs⟩) => exact iff_of_true ⟨_, _, rfl, fun _ => rfl⟩ trivial
  | .simple bg (.command ⟨command :: args, ins, outs⟩) =>
    by_cases hfits : LookupFits (env.isExecutable s) env.path command
    · obtain ⟨r, hr, hfound⟩ := resolveSimple_of_fits hfits
      cases r with
      | found path argv0 =>
        have hf : Found (env.isExecutable s) env.path command := hfound.1 ⟨_, _, rfl⟩
        cases bg <;> simp [launch, launchSimple, launchBackground, hr, Launches, hfits, hf, Except.map]
      | notFound name =>
        have hf : ¬Found (env.isExecutable s) env.path command := fun h => by simpa using hfound.2 h
        cases bg <;> simp [launch, launchSimple, launchBackground, hr, Launches, hfits, hf, Except.map]
    · have hr := resolveSimple_of_not_fits hfits
      cases bg <;> simp [launch, launchSimple, launchBackground, hr, Launches, hfits, Except.map]

/-- The state in which the next segment is started. -/
def after (e : Event) (s : σ) : σ :=
  match launch env e s with
  | .ok (_, s') => s'
  | .error _ => s

/-- Every call of the list can be made, each in the state the calls before it
    have led to. -/
def Runs : List Event → σ → Prop
  | [], _ => True
  | e :: es, s => Launches env e (!es.isEmpty) s ∧ Runs es (after env e s)

/-- **The run logs every segment iff all calls can be made.** -/
theorem runSegments_iff : ∀ (segs : List (List Token × Bool)) (w : World σ),
    (∃ res w' es, runSegments env segs w = .ok (res, w') ∧ segs.mapM build = .ok es ∧
      w'.log = w.log ++ es) ↔ ∃ es, segs.mapM build = .ok es ∧ Runs env es w.state
  | [], w => by simp [runSegments, Runs]
  | seg :: segs, w => by
    rcases hb : build seg with e | e
    · simp [runSegments, hb, List.mapM_cons]
    have ih := fun s => runSegments_iff segs ⟨s, w.log ++ [e]⟩
    have hmap : ∀ es, (seg :: segs).mapM build = .ok es ↔ ∃ es', segs.mapM build = .ok es' ∧ es = e :: es' := by
      intro es
      rw [List.mapM_cons, hb, ok_bind]
      rcases segs.mapM build with e' | es' <;> simp [eq_comm]
    rw [runSegments, hb, ok_bind]
    simp only [hmap]
    rcases hl : launch env e w.state with e' | ⟨res, s⟩
    · constructor
      · rintro ⟨res, w', es, h, -⟩
        cases h
      · rintro ⟨es, ⟨es', -, rfl⟩, hruns⟩
        obtain ⟨res, s', h, -⟩ := (launches_iff env e _ _).2 hruns.1
        rw [hl] at h
        cases h
    have hafter : after env e w.state = s := by rw [after, hl]
    have hlaunches : ∀ more : Bool, Launches env e more w.state ↔ (more → res = 0) := by
      intro more
      rw [← launches_iff, hl]
      simp
    simp only [ok_bind]
    by_cases hres : res = 0
    · subst hres
      simp only [ne_eq, not_true_eq_false, ↓reduceIte]
      constructor
      · rintro ⟨res, w', es, h, ⟨es', hes, rfl⟩, hlog⟩
        obtain ⟨es'', hes'', hruns⟩ := (ih s).1 ⟨res, w', es', h, hes, by simpa using hlog⟩
        obtain rfl : es' = es'' := Except.ok.inj (hes.symm.trans hes'')
        exact ⟨e :: es', ⟨es', hes, rfl⟩, (hlaunches _).2 (fun _ => rfl), hafter.symm ▸ hruns⟩
      · rintro ⟨es, ⟨es', hes, rfl⟩, -, hruns⟩
        obtain ⟨res, w', es'', h, hes'', hlog⟩ := (ih s).2 ⟨es', hes, hafter ▸ hruns⟩
        obtain rfl : es' = es'' := Except.ok.inj (hes.symm.trans hes'')
        exact ⟨res, w', e :: es', h, ⟨es', hes, rfl⟩, by simpa using hlog⟩
    · -- the early return: it is right only after the last segment
      simp only [ne_eq, hres, not_false_eq_true, ↓reduceIte]
      constructor
      · rintro ⟨_, w', es, h, ⟨es', hes, rfl⟩, hlog⟩
        cases h
        have hnil : es' = [] := by simpa [eq_comm] using hlog
        exact ⟨[e], ⟨[], hnil ▸ hes, rfl⟩, (hlaunches _).2 (by simp), trivial⟩
      · rintro ⟨es, ⟨es', hes, rfl⟩, hlaunch, -⟩
        have hnil : es' = [] := by
          have := (hlaunches _).1 hlaunch
          simpa [hres] using this
        exact ⟨res, _, [e], rfl, ⟨[], hnil ▸ hes, rfl⟩, rfl⟩

end

end CShell
