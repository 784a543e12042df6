/-
  C-Shell formalization — the fixed arrays on the way of a line.

  The builders write to `argv`, `input_files` and `output_files`, the
  launchers of pipelines to `pipes` and `children`, `exec_peak` to `files`;
  all have 100 entries, and no index is checked.  A write past the end is a
  fault of the model.

  * `peekLoop_eq`: how many files `exec_peak` collects;
  * `buildStages_ok`: the stages of a pipeline are built without a fault iff
    each one that is come to fits;
  * `inBounds_iff`: the arrays are kept to, whatever the shell's calls
    do, iff the tokens of the line leave room (`LineRoom`);
  * `lineRoom_of_length`: a line of fewer than 100 bytes does.
-/
import CShell.Shell.Sequencing
import CShell.Shell.JobControl
import CShell.Shell.Automaton

namespace CShell

open Lib

/-! ## `exec_peak` -/

/-- The size of `files` in `exec_peak`. -/
def maxPeekFiles : ℕ := 100

/-- What the first loop of `exec_peak` collects. -/
structure PeekArgs where
  showNums : Bool
  reverse : Bool
  files : List Str
  deriving DecidableEq, Repr

/-- The letters of an option; `none` is the early return. -/
def peekOption (args : PeekArgs) : Str → Option PeekArgs
  | [] => some args
  | c :: cs =>
    if c = byte 'n' then peekOption { args with showNums := true } cs
    else if c = byte 'r' then peekOption { args with reverse := true } cs
    else none

/-- The first loop of `exec_peak`.  A `-` copies the input at once. -/
def peekLoop (args : PeekArgs) : List Token → Except Fault (Option PeekArgs)
  | [] => return some args
  | t :: current =>
    if t.value = str "-" then peekLoop args current
    else if t.value.head? = some (byte '-') then
      match peekOption args t.value.tail with
      | none => return none
      | some args => peekLoop args current
    else do
      let files ← push maxPeekFiles args.files t.value
      peekLoop { args with files := files } current

/-- The arguments of `exec_peak(tokens)`. -/
def peekArgs (tokens : List Token) : Except Fault (Option PeekArgs) :=
  peekLoop ⟨false, false, []⟩ tokens.tail

/-! ## The accesses -/

/-- The size of `pipes`. -/
def maxPipes : ℕ := 100

/-- The arrays are kept to in the call: `run_pipeline` and
    `run_pipeline_background` use `children[i]` for every stage and `pipes[i]`
    for all but the last. -/
def Event.InBounds : Event → Prop
  | .builtin .peek tokens => ∃ r, peekArgs tokens = .ok r
  | .pipeline _ (some (_, count)) => (∀ i < count, i < maxChildren) ∧ ∀ i < count - 1, i < maxPipes
  | _ => True

/-- The arrays are kept to while the line is executed, in every state and
    whatever the calls do, for a `$PATH` that `find_path` can copy. -/
def InBounds (tokens : List Token) : Prop :=
  ∀ (σ : Type) (env : Env σ) (s : σ), (∀ path ∈ env.path, path.length < pathMax) →
    ∃ w, executeLine env tokens ⟨s, []⟩ = .ok w ∧ ∀ e ∈ w.log, e.InBounds

/-! ## Room in the arrays -/

/-- The option is not valid. -/
def badOption (v : Str) : Bool :=
  v.head? = some (byte '-') && v.tail.any fun c => c ≠ byte 'n' && c ≠ byte 'r'

/-- The file arguments before the first invalid option. -/
def fileArgs (vs : List Str) : List Str :=
  (vs.takeWhile fun v => !badOption v).filter fun v => v.head? ≠ some (byte '-')

/-- The arguments and input files of a stage, whatever their number. -/
abbrev stageInputs (ts : List Token) : Inputs Str := splitInputs Token.value (fun _ => false) ts

/-- The command of a stage, whatever its length. -/
def builtStage (ts : List Token) : Option (Command Str) :=
  if (stageInputs ts).complete then finishStage id ((stageInputs ts).argv, (stageInputs ts).files)
  else none

/-- Every stage up to the first one that is malformed fits. -/
def StagesFit : List (List Token) → Prop
  | [] => True
  | ts :: tss => (stageInputs ts).Fits ∧ ((builtStage ts).isSome → StagesFit tss)

/-- A segment leaves room: fewer than 100 words that are not input
    redirections, at most 100 input files and at most 100 stages. -/
def SegmentRoom (seg : List Token) : Prop :=
  if .op .pipe ∈ seg then
    StagesFit (stages seg) ∧
      ((∀ ts ∈ stages seg, (builtStage ts).isSome) → (stages seg).length ≤ maxChildren)
  else (splitInputs Token.value isEnd seg).Fits

/-- The tokens of a line leave room in every array: for `peek` its files, for other built-ins nothing,
    and otherwise every segment. -/
def LineRoom (tokens : List Token) : Prop :=
  match builtinOf tokens with
  | some .peek => (fileArgs (tokens.tail.map Token.value)).length ≤ maxPeekFiles
  | some _ => True
  | none => ∀ p ∈ segments tokens, SegmentRoom p.1

/-! ## The loop of `exec_peak` -/

theorem peekOption_eq (args : PeekArgs) (cs : Str) :
    (peekOption args cs).isNone = (cs.any fun c => c ≠ byte 'n' && c ≠ byte 'r') ∧
      ∀ args', peekOption args cs = some args' → args'.files = args.files := by
  induction cs generalizing args with
  | nil =>
    refine ⟨rfl, ?_⟩
    rintro args' ⟨⟩
    rfl
  | cons c cs ih =>
    rw [peekOption]
    by_cases hn : c = byte 'n'
    · rw [if_pos hn]
      simpa [hn] using ih { args with showNums := true }
    rw [if_neg hn]
    by_cases hr : c = byte 'r'
    · rw [if_pos hr]
      simpa [hr, hn] using ih { args with reverse := true }
    · rw [if_neg hr]
      exact ⟨by simp [hn, hr], nofun⟩

theorem badOption_dash : badOption (str "-") = false := by decide

theorem fileArgs_cons (v : Str) (vs : List Str) :
    fileArgs (v :: vs) =
      if badOption v then []
      else if v.head? = some (byte '-') then fileArgs vs else v :: fileArgs vs := by
  rw [fileArgs, List.takeWhile_cons]
  by_cases hb : badOption v
  · simp [hb]
  · by_cases hd : v.head? = some (byte '-')
    · simp [hb, hd, fileArgs]
    · simp [hb, hd, fileArgs]

/-- `exec_peak` keeps to its array iff the file arguments fit. -/
theorem peekLoop_eq (ts : List Token) (args : PeekArgs) (h : args.files.length ≤ maxPeekFiles) :
    (∃ r, peekLoop args ts = .ok r) ↔
      args.files.length + (fileArgs (ts.map Token.value)).length ≤ maxPeekFiles := by
  induction ts generalizing args with
  | nil => exact iff_of_true ⟨_, rfl⟩ h
  | cons t ts ih =>
    rw [peekLoop, List.map_cons, fileArgs_cons]
    by_cases hdash : t.value = str "-"
    · rw [if_pos hdash, hdash, badOption_dash, ih args h]
      exact Iff.rfl
    rw [if_neg hdash]
    by_cases hopt : t.value.head? = some (byte '-')
    · obtain ⟨hnone, hfiles⟩ := peekOption_eq args t.value.tail
      have hbad : badOption t.value = (peekOption args t.value.tail).isNone := by
        simp [badOption, hopt, hnone]
      simp only [if_pos hopt]
      rcases hp : peekOption args t.value.tail with _ | args'
      · rw [hp] at hbad
        exact iff_of_true ⟨_, rfl⟩ (by simpa [hbad] using h)
      · rw [hp] at hbad
        have heq := hfiles args' hp
        rw [hbad, ih args' (heq ▸ h), heq]
        exact Iff.rfl
    · have hbad : badOption t.value = false := by simp [badOption, hopt]
      simp only [hopt, hbad, if_false, Bool.false_eq_true, List.length_cons]
      by_cases hroom : args.files.length < maxPeekFiles
      · rw [push_of_lt _ hroom, ok_bind, ih _ (by rwa [List.length_append])]
        simp only [List.length_append, List.length_singleton]
        omega
      · rw [push, if_neg hroom, error_bind]
        exact iff_of_false (not_exists_error_eq_ok _) (by omega)

/-! ## The builders -/

theorem parsePipelineStage_result (ts : List Token) :
    parsePipelineStage Token.value id ts =
      if (stageInputs ts).Fits then .ok (builtStage ts) else .error .overrun := by
  rw [parsePipelineStage_eq, redirectLoop_start, Inputs.result, builtStage]
  by_cases hfit : (stageInputs ts).Fits
  · rw [if_pos hfit, if_pos hfit]
    cases (stageInputs ts).complete <;> rfl
  · rw [if_neg hfit, if_neg hfit]
    rfl

/-- The stages are built without a fault iff they fit, and all are built iff
    none is malformed. -/
theorem buildStages_ok (tss : List (List Token)) :
    ((∃ r, buildStages Token.value id tss = .ok r) ↔ StagesFit tss) ∧
      ∀ r, buildStages Token.value id tss = .ok r →
        (r.isSome ↔ ∀ ts ∈ tss, (builtStage ts).isSome) := by
  induction tss with
  | nil =>
    refine ⟨iff_of_true ⟨_, rfl⟩ trivial, ?_⟩
    rintro r ⟨⟩
    simp
  | cons ts tss ih =>
    obtain ⟨hok, hsome⟩ := ih
    rw [buildStages, parsePipelineStage_result, StagesFit]
    by_cases hfit : (stageInputs ts).Fits
    swap
    · rw [if_neg hfit, error_bind]
      refine ⟨iff_of_false (not_exists_error_eq_ok _) fun h => hfit h.1, ?_⟩
      intro r hr
      cases hr
    rw [if_pos hfit, ok_bind]
    rcases hst : builtStage ts with _ | c
    · refine ⟨iff_of_true ⟨_, rfl⟩ ⟨hfit, fun h => absurd h Bool.false_ne_true⟩, ?_⟩
      rintro r ⟨⟩
      simp [hst]
    · simp only [Option.isSome_some, true_implies, hfit, true_and, ← hok]
      rcases hb : buildStages Token.value id tss with e | r
      · refine ⟨iff_of_false (not_exists_error_eq_ok e) (not_exists_error_eq_ok e), ?_⟩
        intro r hr
        cases hr
      · refine ⟨iff_of_true ⟨r.map (c :: ·), by cases r <;> rfl⟩ ⟨r, rfl⟩, fun r' hr' => ?_⟩
        have hr := hsome r hb
        cases r with
        | none =>
          cases hr'
          simpa [hst] using hr
        | some cs =>
          cases hr'
          simpa [hst] using hr

/-- What is built for a segment keeps to the arrays iff they have room. -/
theorem build_inBounds_iff {p : List Token × Bool} (hp : ∀ t ∈ p.1, ¬t.endsSegment) :
    (∃ e, build p = .ok e ∧ e.InBounds) ↔ SegmentRoom p.1 := by
  have hpipe : hasPipeline p.1 ↔ .op .pipe ∈ p.1 := by rw [hasPipeline_iff, segment_eq_self hp]
  rw [build, SegmentRoom]
  by_cases hmem : .op .pipe ∈ p.1
  · rw [if_pos (hpipe.2 hmem), if_pos hmem, parsePipeline_eq, segment_eq_self hp]
    obtain ⟨hok, hsome⟩ := buildStages_ok (stages p.1)
    rw [← hok]
    rcases hb : buildStages Token.value id (stages p.1) with e | r
    · refine iff_of_false ?_ fun h => not_exists_error_eq_ok e h.1
      rintro ⟨ev, hev, -⟩
      cases hev
    have hall := hsome r hb
    cases r with
    | none =>
      refine iff_of_true ⟨_, rfl, trivial⟩ ⟨⟨_, rfl⟩, fun h => ?_⟩
      exact absurd (hall.2 h) Bool.false_ne_true
    | some cs =>
      constructor
      · rintro ⟨_, ⟨⟩, hin⟩
        refine ⟨⟨_, rfl⟩, fun _ => ?_⟩
        by_contra hlt
        exact absurd (hin.1 maxChildren (Nat.lt_of_not_le hlt)) (Nat.lt_irrefl _)
      · rintro ⟨-, hlen⟩
        have hlen : (stages p.1).length ≤ 100 := hlen (hall.1 rfl)
        refine ⟨_, rfl, fun i hi => Nat.lt_of_lt_of_le hi hlen, fun i hi => ?_⟩
        exact Nat.lt_of_lt_of_le hi (by rw [maxPipes]; omega)
  · rw [if_neg fun h => hmem (hpipe.1 h), if_neg hmem, parseSimple_eq]
    by_cases hfit : (splitInputs Token.value isEnd p.1).Fits
    · rw [if_pos hfit]
      exact iff_of_true ⟨_, rfl, trivial⟩ hfit
    · rw [if_neg hfit]
      refine iff_of_false ?_ hfit
      rintro ⟨ev, hev, -⟩
      cases hev

/-! ## The run over the segments -/

section
variable {σ : Type} {env : Env σ}

/-- With room for every segment the run keeps to the arrays. -/
theorem runSegments_inBounds (hpath : ∀ path ∈ env.path, path.length < pathMax)
    (segs : List (List Token × Bool)) (hroom : ∀ p ∈ segs, ∃ e, build p = .ok e ∧ e.InBounds)
    (w : World σ) (hw : ∀ e ∈ w.log, e.InBounds) :
    ∃ res w', runSegments env segs w = .ok (res, w') ∧ ∀ e ∈ w'.log, e.InBounds := by
  induction segs generalizing w with
  | nil => exact ⟨0, w, rfl, hw⟩
  | cons p segs ih =>
    obtain ⟨⟨e, he, hin⟩, hroom⟩ := List.forall_mem_cons.1 hroom
    obtain ⟨res, s', hl, -⟩ := (launches_iff env e false w.state).2 (by
      unfold Launches
      split
      · exact ⟨.inr (.inr hpath), fun _ => nofun⟩
      · trivial)
    have hlog : ∀ e' ∈ w.log ++ [e], e'.InBounds :=
      List.forall_mem_append.2 ⟨hw, List.forall_mem_singleton.2 hin⟩
    rw [runSegments, he, ok_bind, hl, ok_bind]
    dsimp only
    split
    · exact ⟨_, _, rfl, hlog⟩
    · exact ih hroom _ hlog

/-- If every command is found, then the run comes to every segment. -/
theorem runSegments_all (hgo : ∀ e s res s', launch env e s = .ok (res, s') → res = 0)
    (segs : List (List Token × Bool)) {w w' : World σ} {res : ℕ}
    (h : runSegments env segs w = .ok (res, w')) :
    (∀ e ∈ w.log, e ∈ w'.log) ∧ ∀ p ∈ segs, ∃ e ∈ w'.log, build p = .ok e := by
  induction segs generalizing w with
  | nil =>
    cases h
    exact ⟨fun e he => he, nofun⟩
  | cons p segs ih =>
    rw [runSegments] at h
    rcases hb : build p with e | e
    · rw [hb] at h
      cases h
    rcases hl : launch env e w.state with e' | ⟨res', s'⟩
    · simp [hb, hl] at h
    obtain rfl := hgo e _ _ _ hl
    simp only [hb, hl, ok_bind, ne_eq, not_true_eq_false, if_false] at h
    obtain ⟨hlog, hall⟩ := ih h
    refine ⟨fun e' he' => hlog e' (List.mem_append_left _ he'), ?_⟩
    exact List.forall_mem_cons.2 ⟨⟨e, hlog e (List.mem_append_right _ (.head _)), hb⟩, hall⟩

end

/-- A shell in which every name is that of an executable file. -/
def richEnv : Env Unit := { quietEnv [] with isExecutable := fun _ _ => true, path := some (str "/") }

theorem richEnv_found (command : Str) : Found (richEnv.isExecutable ()) richEnv.path command := by
  rw [Found]
  split
  · rfl
  · split
    · exact ⟨str "/", rfl, str "/", by decide, rfl⟩
    · exact .inl rfl

theorem richEnv_launch (e : Event) (s : Unit) (res : ℕ) (s' : Unit)
    (h : launch richEnv e s = .ok (res, s')) : res = 0 := by
  have hl : Launches richEnv e true s := by
    unfold Launches
    split
    · refine ⟨.inr (.inr ?_), fun _ _ => richEnv_found _⟩
      rintro path ⟨⟩
      decide
    · trivial
  obtain ⟨res', s'', h', hres⟩ := (launches_iff richEnv e true s).2 hl
  rw [h] at h'
  cases h'
  exact hres rfl

/-! ## The line -/

/-- **The arrays are kept to iff the tokens leave room.** -/
theorem inBounds_iff (tokens : List Token) : InBounds tokens ↔ LineRoom tokens := by
  rw [LineRoom]
  cases hb : builtinOf tokens with
  | some b =>
    have hin : InBounds tokens ↔ (Event.builtin b (given b tokens)).InBounds := by
      constructor
      · intro h
        obtain ⟨w, hw, hlog⟩ := h Unit richEnv () (by rintro path ⟨⟩; decide)
        obtain ⟨s', hs'⟩ := executeLine_builtin richEnv hb ()
        rw [hs'] at hw
        cases hw
        exact hlog _ (.head _)
      · intro h σ env s _
        obtain ⟨s', hs'⟩ := executeLine_builtin env hb s
        exact ⟨_, hs', List.forall_mem_singleton.2 h⟩
    rw [hin]
    cases b with
    | peek =>
      refine (peekLoop_eq tokens.tail ⟨false, false, []⟩ (Nat.zero_le _)).trans ?_
      rw [List.length_nil, Nat.zero_add]
    | _ => exact Iff.rfl
  | none =>
    have hroom : ∀ p ∈ segments tokens, (∃ e, build p = .ok e ∧ e.InBounds) ↔ SegmentRoom p.1 :=
      fun p hp => build_inBounds_iff (mem_segments hp).2.1
    constructor
    · intro h p hp
      obtain ⟨w, hw, hlog⟩ := h Unit richEnv () (by rintro path ⟨⟩; decide)
      rw [executeLine_sequence richEnv hb] at hw
      rcases hr : runSegments richEnv (segments tokens) ⟨(), []⟩ with e | ⟨res, w'⟩
      · rw [hr] at hw
        cases hw
      rw [hr] at hw
      cases hw
      obtain ⟨-, hall⟩ := runSegments_all richEnv_launch _ hr
      obtain ⟨e, he, hbuild⟩ := hall p hp
      exact (hroom p hp).1 ⟨e, hbuild, hlog e he⟩
    · intro h σ env s hpath
      obtain ⟨res, w, hr, hlog⟩ := @runSegments_inBounds σ env hpath _
        (fun p hp => (hroom p hp).2 (h p hp)) ⟨s, []⟩ nofun
      refine ⟨⟨env.drainBackgroundNotifications w.state, w.log⟩, ?_, hlog⟩
      rw [executeLine_sequence env hb, hr]
      rfl

/-! ## Short lines -/

theorem splitInputs_length (stop : Token → Bool) (ts : List Token) :
    (splitInputs Token.value stop ts).argv.length + (splitInputs Token.value stop ts).files.length ≤
      ts.length := by
  fun_induction splitInputs Token.value stop ts with
  | case1 => exact Nat.le_refl _
  | case2 => exact Nat.zero_le _
  | case3 _ _ _ w ts r ih =>
    simp only [r, List.length_cons]
    omega
  | case4 => exact Nat.zero_le _
  | case5 t ts _ _ r ih =>
    simp only [r, List.length_cons]
    omega

theorem fits_of_length (stop : Token → Bool) {ts : List Token} (h : ts.length < maxArgs) :
    (splitInputs Token.value stop ts).Fits := by
  have hlen := splitInputs_length stop ts
  have hc := Bool.toNat_le (splitInputs Token.value stop ts).complete
  exact ⟨by omega, by omega⟩

theorem length_of_mem_segmentsFrom {ts seg : List Token} {p : List Token × Bool}
    (h : p ∈ segmentsFrom seg ts) : p.1.length ≤ seg.length + ts.length := by
  induction ts generalizing seg with
  | nil =>
    rw [segmentsFrom] at h
    split at h
    · cases h
    · obtain rfl := List.mem_singleton.1 h
      exact Nat.le_refl _
  | cons t ts ih =>
    by_cases ht : t.endsSegment
    · obtain ⟨b, hcons, -⟩ := exists_segmentsFrom_cons ht seg ts
      rw [hcons, List.mem_cons] at h
      rcases h with rfl | h
      · exact Nat.le_add_right _ _
      · have := ih h
        simp only [List.length_nil, List.length_cons] at this ⊢
        omega
    · rw [segmentsFrom_cons ht] at h
      have := ih h
      simp only [List.length_append, List.length_cons, List.length_nil] at this ⊢
      omega

theorem segmentRoom_of_length {seg : List Token} (h : seg.length < maxArgs) : SegmentRoom seg := by
  rw [SegmentRoom]
  split
  · constructor
    · have hall : ∀ ts ∈ stages seg, (stageInputs ts).Fits := fun ts hts =>
        fits_of_length _ (Nat.lt_of_le_of_lt (infix_of_mem_stages hts).1.length_le h)
      generalize stages seg = tss at hall
      induction tss with
      | nil => trivial
      | cons ts tss ih =>
        obtain ⟨hts, hall⟩ := List.forall_mem_cons.1 hall
        exact ⟨hts, fun _ => ih hall⟩
    · intro _
      have hcount : seg.count (.op .pipe) ≤ seg.length := List.count_le_length
      rw [length_stages, maxChildren]
      rw [maxArgs] at h
      omega
  · exact fits_of_length _ h

/-- Fewer than 100 tokens fit everywhere. -/
theorem lineRoom_of_tokens {tokens : List Token} (h : tokens.length < maxArgs) : LineRoom tokens := by
  rw [LineRoom]
  split
  · have hle : (fileArgs (tokens.tail.map Token.value)).length ≤ (tokens.tail.map Token.value).length :=
      ((List.filter_sublist).trans (List.takeWhile_sublist _)).length_le
    rw [List.length_map, List.length_tail] at hle
    rw [maxArgs] at h
    rw [maxPeekFiles]
    omega
  · trivial
  · intro p hp
    refine segmentRoom_of_length (Nat.lt_of_le_of_lt (length_of_mem_segmentsFrom hp) ?_)
    simpa using h

/-- **A line of fewer than 100 bytes leaves room.** -/
theorem lineRoom_of_length {line : Str} {tokens : List Token} (hlen : line.length < maxArgs)
    (h0 : 0 ∉ line) (hlex : lexing [] line = .ok (true, tokens)) : LineRoom tokens := by
  rw [maxArgs] at hlen
  have hfit : WordsFit line := fits_scan (by
    rw [wordSize, Mode.size_between]
    omega)
  obtain ⟨b, ts, h₁, -, h₂⟩ := lexing_scan h0 hfit
  rw [hlex] at h₁
  cases h₁
  have hle := length_scan (.between false) line
  rw [h₂ rfl, List.nil_append]
  exact lineRoom_of_tokens (Nat.lt_of_le_of_lt hle (by simpa [Mode.begun, maxArgs] using hlen))

/-- The tokens of a line that `main` executes: at most 1023 bytes from
    `fgets`, none of them a NUL, that `lexing` and `parsing` accept. -/
structure Accepted (line : Str) (tokens : List Token) : Prop where
  length : line.length ≤ 1023
  noNul : 0 ∉ line
  lexed : lexing [] line = .ok (true, tokens)
  parsed : parsing tokens

/-- **For every line: the arrays are kept to iff its tokens leave room.** -/
theorem accepted_inBounds_iff (line : Str) :
    (∀ tokens, Accepted line tokens → InBounds tokens) ↔
      ∀ tokens, Accepted line tokens → LineRoom tokens :=
  forall₂_congr fun tokens _ => inBounds_iff tokens

/-- `a>a>…>a` with 50 output files: 101 tokens in 101 bytes. -/
def manyOutputs : List Token := .word (str "a") :: (List.replicate 50 [.op .gt, .word (str "a")]).flatten

theorem many_outputs_overrun :
    Accepted (str "a" ++ (List.replicate 50 (str ">a")).flatten) manyOutputs ∧
      ¬InBounds manyOutputs := by
  refine ⟨⟨by decide +kernel, by decide +kernel, by decide +kernel, by decide +kernel⟩, ?_⟩
  have hb : builtinOf manyOutputs = none := by decide +kernel
  have hseg : segments manyOutputs = [(manyOutputs, false)] := by decide +kernel
  rw [inBounds_iff, LineRoom, hb]
  intro h
  have hroom := h (manyOutputs, false) (by rw [hseg]; exact .head _)
  rw [SegmentRoom, if_neg (by decide +kernel)] at hroom
  exact absurd hroom (by decide +kernel)

end CShell
