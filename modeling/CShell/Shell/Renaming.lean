/-
  C-Shell formalization — operators and quoted words.

  The lexer gives a quoted operator, as in `echo '<'`, the type `WORD`, and the
  parser goes by the type.  The builders go by the text.  Here the words of a
  line are renamed, and what the builders make of the line is to commute with
  the renaming.

  It does if every word is read as before (`SameReading`): a word counts where
  it is compared, which the name of an input file never is and the name of an
  output file only by the first of the two loops.  If no word of the line is
  taken for an operator, or none of the renamed line, it commutes exactly if
  the same holds of the other (`commands_rename_iff`).
-/
import CShell.Shell.Reading
import CShell.Shell.Lexer

namespace CShell

open Lib

/-! ## The commands of a line -/

/-- The places where `sequence_command` starts a segment. -/
def startsFrom (first : Bool) : List Token → List (List Token)
  | [] => []
  | t :: ts => (if first then [t :: ts] else []) ++ startsFrom t.endsSegment ts

/-- The places where the segments of a line start. -/
def starts (tokens : List Token) : List (List Token) := startsFrom true tokens

/-- The builder used for a segment. -/
def buildSegment (start : List Token) : Except Fault (Option (List (Command Str))) :=
  if hasPipeline start then mapOk Prod.fst (parsePipeline Token.value id start)
  else mapOk (fun c => [c]) (buildSimple Token.value id start)

/-- What is built from the segments of a line. -/
def commands (tokens : List Token) : List (Except Fault (Option (List (Command Str)))) :=
  (starts tokens).map buildSegment

/-- A property of every simple command (`true`) and every stage of a pipeline. -/
def EachPart (P : Bool → List Token → Prop) (tokens : List Token) : Prop :=
  ∀ start ∈ starts tokens, ∀ ts ∈ stages (segment start), P (!hasPipeline start) ts

/-- The segment behind `seg`, and the segments after it. -/
theorem mem_segmentsFrom_of_starts : ∀ {b : Bool} {seg ts start : List Token},
    start ∈ startsFrom b ts → (b = true → seg = []) → ∃ p ∈ segmentsFrom seg ts, p.1 = segment start
  | b, seg, t :: ts, start, h, hb => by
    rw [startsFrom, List.mem_append] at h
    rcases h with h | h
    · cases b with
      | false => cases h
      | true =>
        rw [hb rfl, List.mem_singleton.1 h, segmentsFrom_eq [] (t :: ts) (by simp)]
        exact ⟨_, List.mem_cons_self, rfl⟩
    · by_cases ht : t.endsSegment
      · rw [ht] at h
        obtain ⟨p, hp, hseg⟩ := @mem_segmentsFrom_of_starts _ [] _ _ h fun _ => rfl
        obtain ⟨q, hq, -⟩ := exists_segmentsFrom_cons ht seg ts
        rw [hq]
        exact ⟨p, List.mem_cons_of_mem _ hp, hseg⟩
      · rw [Bool.not_eq_true] at ht
        rw [ht] at h
        rw [segmentsFrom_cons (by simp [ht])]
        exact mem_segmentsFrom_of_starts h (by simp)

/-- The parts of an accepted line are stages of the grammar. -/
theorem isStage_of_parsing {tokens : List Token} (h : parsing tokens) :
    EachPart (fun _ ts => IsStage ts) tokens := by
  intro start hstart ts hts
  obtain ⟨p, hp, hseg⟩ := @mem_segmentsFrom_of_starts _ [] _ _ hstart fun _ => rfl
  exact stages_of_parsing h p hp ts (hseg ▸ hts)

/-! ## Building part by part -/

/-- The builder used for a simple command, or for a stage. -/
def buildPart (simple : Bool) (ts : List Token) : Except Fault (Option (Command Str)) :=
  if simple then buildSimple Token.value id ts else parsePipelineStage Token.value id ts

theorem buildPart_stage {simple : Bool} {ts : List Token} (hts : IsStage ts)
    (hread : ReadAsWords simple ts) : buildPart simple ts =
      if HasRoom ts ∧ (inputs ts).length ≤ maxArgs then .ok (some (stageOf ts))
      else .error .overrun := by
  cases simple with
  | true => exact buildSimple_stage hts hread
  | false => exact parsePipelineStage_stage hts hread

theorem kept_of_buildPart {simple : Bool} {ts : List Token} {c : Command Str}
    (h : buildPart simple ts = .ok (some c)) :
    (∀ w ∈ c.argv, Passes simple w ∧ ¬isOutput id w) ∧
      ∀ o ∈ c.outputFiles, Passes simple o.name := by
  cases simple with
  | true =>
    refine @kept_of_finish _ ts c ?_
    rw [← h]
    exact (buildSimple_eq Token.value id ts).symm
  | false =>
    refine @kept_of_finish _ ts c ?_
    have hstage := (parsePipelineStage_eq Token.value id ts).symm.trans h
    change bindOk (redirectLoop Token.value (fun _ => false) [] [] ts) (finish id) = _
    generalize redirectLoop Token.value (fun _ => false) [] [] ts = r at hstage ⊢
    rcases r with e | _ | r
    · cases hstage
    · cases hstage
    · exact congrArg Except.ok (Option.eq_some_of_filter_eq_some (Except.ok.inj hstage))

theorem buildStages_eq_some {tss : List (List Token)} {cs : List (Command Str)} :
    buildStages Token.value id tss = .ok (some cs) ↔
      List.Forall₂ (fun ts c => parsePipelineStage Token.value id ts = .ok (some c)) tss cs := by
  induction tss generalizing cs with
  | nil => simp [buildStages, eq_comm]
  | cons ts tss ih =>
    rw [buildStages, List.forall₂_cons_left_iff]
    rcases hts : parsePipelineStage Token.value id ts with e | _ | c
    · simp
    · simp
    · rcases hrest : buildStages Token.value id tss with e | _ | cs'
      · simp [← ih, hrest]
      · simp [← ih, hrest]
      · simp [← ih, hrest, eq_comm]

theorem stages_of_simple {start : List Token} (h : hasPipeline start = false) :
    stages (segment start) = [segment start] := by
  refine stages_of_not_mem fun hp => ?_
  rw [(hasPipeline_iff start).2 hp] at h
  cases h

theorem buildSimple_segment (start : List Token) :
    buildSimple Token.value id (segment start) = buildSimple Token.value id start := by
  rw [buildSimple_eq, buildSimple_eq, redirectLoop_segment]

/-- The commands of a pipeline, without their number. -/
theorem parsePipeline_stages (start : List Token) :
    mapOk Prod.fst (parsePipeline Token.value id start) =
      buildStages Token.value id (stages (segment start)) := by
  rw [parsePipeline_eq]
  rcases buildStages Token.value id (stages (segment start)) with e | _ | cs <;> rfl

/-- A segment is built iff all its parts are. -/
theorem buildSegment_eq_some {start : List Token} {cs : List (Command Str)} :
    buildSegment start = .ok (some cs) ↔
      List.Forall₂ (fun ts c => buildPart (!hasPipeline start) ts = .ok (some c))
        (stages (segment start)) cs := by
  rw [buildSegment]
  cases hp : hasPipeline start with
  | true =>
    rw [if_pos rfl, parsePipeline_stages]
    exact buildStages_eq_some
  | false =>
    rw [if_neg (by decide), stages_of_simple hp, ← buildSimple_segment]
    change _ ↔ List.Forall₂ (fun ts c => buildSimple Token.value id ts = .ok (some c)) _ _
    rw [List.forall₂_cons_left_iff]
    rcases buildSimple Token.value id (segment start) with e | _ | c
    · simp
    · simp
    · simp [eq_comm]

/-! ## Renaming the words -/

/-- `f` on the value of a word. -/
def Token.rename (f : Str → Str) : Token → Token
  | op o => op o
  | word w => word (f w)

/-- `g` on the name of an output file. -/
def OutputFile.map {α β : Type} (g : α → β) (o : OutputFile α) : OutputFile β := ⟨g o.name, o.append⟩

/-- `g` on everything a command holds. -/
def Command.map {α β : Type} (g : α → β) (c : Command α) : Command β :=
  ⟨c.argv.map g, c.inputFiles.map g, c.outputFiles.map (OutputFile.map g)⟩

/-- The commands built from a line commute with `f`. -/
def Commutes (f : Str → Str) (tokens : List Token) : Prop :=
  commands (tokens.map (·.rename f)) = (commands tokens).map (mapOk (List.map (Command.map f)))

section
variable {f : Str → Str}

theorem rename_eq_op {t : Token} {o : Op} : t.rename f = .op o ↔ t = .op o := by
  cases t <;> simp [Token.rename]

theorem endsSegment_rename (t : Token) : (t.rename f).endsSegment = t.endsSegment := by
  simp only [Token.endsSegment, rename_eq_op]

theorem segment_rename (ts : List Token) :
    segment (ts.map (·.rename f)) = (segment ts).map (·.rename f) := by
  simp only [segment, List.takeWhile_map, Function.comp_def, endsSegment_rename]

theorem stages_rename : ∀ ts : List Token,
    stages (ts.map (·.rename f)) = (stages ts).map (List.map (·.rename f))
  | [] => rfl
  | t :: ts => by
    have ih := stages_rename ts
    rw [stages] at ih ⊢
    rw [stages, List.map_cons, List.splitOnP_cons_eq_if_modifyHead, List.splitOnP_cons_eq_if_modifyHead,
      ih, stages]
    by_cases ht : t = .op .pipe
    · simp [ht, Token.rename]
    · simp only [rename_eq_op, ht, decide_false, Bool.false_eq_true, ↓reduceIte]
      cases List.splitOnP (fun t => decide (t = .op .pipe)) ts <;> rfl

theorem hasPipeline_rename (ts : List Token) : hasPipeline (ts.map (·.rename f)) = hasPipeline ts := by
  rw [Bool.eq_iff_iff, hasPipeline_iff, hasPipeline_iff, segment_rename, List.mem_map]
  exact ⟨fun ⟨t, ht, he⟩ => rename_eq_op.1 he ▸ ht, fun h => ⟨_, h, rfl⟩⟩

theorem startsFrom_rename : ∀ (b : Bool) (ts : List Token),
    startsFrom b (ts.map (·.rename f)) = (startsFrom b ts).map (List.map (·.rename f))
  | _, [] => rfl
  | b, t :: ts => by
    rw [List.map_cons, startsFrom, startsFrom, endsSegment_rename, startsFrom_rename, List.map_append]
    cases b <;> rfl

theorem eachPart_rename {P : Bool → List Token → Prop} {tokens : List Token} :
    EachPart P (tokens.map (·.rename f)) ↔
      EachPart (fun simple ts => P simple (ts.map (·.rename f))) tokens := by
  simp only [EachPart, starts, startsFrom_rename, List.forall_mem_map, hasPipeline_rename,
    segment_rename, stages_rename]

theorem commutes_iff {tokens : List Token} : Commutes f tokens ↔ ∀ start ∈ starts tokens,
    buildSegment (start.map (·.rename f)) = mapOk (List.map (Command.map f)) (buildSegment start) := by
  rw [Commutes, commands, commands, starts, starts, startsFrom_rename, List.map_map, List.map_map,
    List.map_inj_left]
  rfl

/-! ## The grammar's reading -/

theorem collect_rename {β : Type} {take : Option Op → Str → Option β} {g : β → β}
    (htake : ∀ prev w, take prev (f w) = (take prev w).map g) : ∀ (prev : Option Op) (ts : List Token),
    collect take prev (ts.map (·.rename f)) = (collect take prev ts).map g
  | _, [] => rfl
  | prev, .op o :: ts => collect_rename htake (some o) ts
  | prev, .word w :: ts => by
    rw [List.map_cons, Token.rename, collect, collect, htake, collect_rename htake none ts,
      List.map_append]
    cases take prev w <;> rfl

theorem stageOf_rename (ts : List Token) : stageOf (ts.map (·.rename f)) = (stageOf ts).map f := by
  simp only [stageOf, Command.map, args, inputs, outputs]
  congr 1
  · exact collect_rename (fun prev w => by split <;> rfl) none ts
  · exact collect_rename (fun prev w => by split <;> rfl) none ts
  · exact collect_rename (fun prev w => by split <;> rfl) none ts

theorem hasRoom_rename {ts : List Token} :
    (HasRoom (ts.map (·.rename f)) ∧ (inputs (ts.map (·.rename f))).length ≤ maxArgs) ↔
      HasRoom ts ∧ (inputs ts).length ≤ maxArgs := by
  have h := stageOf_rename (f := f) ts
  simp only [stageOf, Command.map, Command.mk.injEq] at h
  rw [HasRoom, HasRoom, h.1, h.2.1, h.2.2, List.length_map, List.length_map, List.length_map]

theorem IsStage.rename {ts : List Token} (h : IsStage ts) : IsStage (ts.map (·.rename f)) := by
  obtain ⟨w, us, rfl, hus⟩ := h
  refine ⟨f w, us.map (·.rename f), rfl, ?_⟩
  induction hus with
  | nil => exact .nil
  | word _ ih => exact .word ih
  | redirect ho _ ih => exact .redirect ho ih

end

/-! ## Texts that are read alike -/

/-- The text of a renamed token. -/
def renamed (f : Str → Str) (t : Token) : Str := (t.rename f).value

/-- The first loop reads every token it looks at as it reads the renamed one. -/
def SameInputs (f : Str → Str) (stop : Token → Bool) : List Token → Prop
  | [] => True
  | t :: ts =>
    stop (t.rename f) = stop t ∧
      (stop t = false → (renamed f t = str "<" ↔ t.value = str "<") ∧
        if t.value = str "<" then
          match ts with
          | .word _ :: ts => SameInputs f stop ts
          | _ => True
        else SameInputs f stop ts)

/-- A token stored in `argv` or as a name has the text the renaming gives it; it may be an operator,
    after a word spelled `>`. -/
def KeepsText (f : Str → Str) (t : Token) : Prop := renamed f t = f t.value

/-- The second loop reads the token as it reads the renamed one. -/
def SameOperator (f : Str → Str) (t : Token) : Prop :=
  (renamed f t = str ">" ↔ t.value = str ">") ∧ (renamed f t = str ">>" ↔ t.value = str ">>")

/-- The second loop reads every entry it looks at as it reads the renamed one. -/
def SameOutputs (f : Str → Str) : List Token → Prop
  | [] => True
  | [t] => SameOperator f t ∧ (¬isOutput Token.value t → KeepsText f t)
  | t :: name :: rest =>
    SameOperator f t ∧
      if isOutput Token.value t then KeepsText f name ∧ SameOutputs f rest
      else KeepsText f t ∧ SameOutputs f (name :: rest)

/-- A part is read by its builder as the renamed part is. -/
def SamePart (f : Str → Str) (simple : Bool) (ts : List Token) : Prop :=
  SameInputs f (stopsAt simple) ts ∧ SameOutputs f (splitInputs id (stopsAt simple) ts).argv

section
variable {f : Str → Str}

/-- What is collected, with every entry changed. -/
def Inputs.map {α β : Type} (g : α → β) (r : Inputs α) : Inputs β :=
  ⟨r.argv.map g, r.files.map g, r.complete⟩

theorem Inputs.result_map {α β : Type} (g : α → β) (r : Inputs α) :
    (r.map g).result = mapOk (Prod.map (List.map g) (List.map g)) r.result := by
  obtain ⟨argv, files, complete⟩ := r
  have hfits : (Inputs.map g ⟨argv, files, complete⟩).Fits ↔ (Inputs.mk argv files complete).Fits := by
    simp only [Inputs.Fits, Inputs.map, List.length_map]
  rw [Inputs.result, Inputs.result]
  by_cases h : (Inputs.mk argv files complete).Fits
  · rw [if_pos (hfits.2 h), if_pos h]
    cases complete <;> rfl
  · rw [if_neg (mt hfits.1 h), if_neg h]
    rfl

theorem splitInputs_value {stop : Token → Bool} : ∀ ts : List Token,
    splitInputs Token.value stop ts = (splitInputs id stop ts).map Token.value
  | [] => rfl
  | t :: ts => by
    by_cases ht : stop t
    · rw [splitInputs_stop ht, splitInputs_stop ht]
      rfl
    by_cases hlt : t.value = str "<"
    · match ts with
      | .word w :: ts =>
        rw [splitInputs_file ht hlt, splitInputs_file ht hlt, splitInputs_value ts]
        rfl
      | [] => rw [splitInputs_noFile ht hlt (by simp), splitInputs_noFile ht hlt (by simp)]; rfl
      | .op o :: ts => rw [splitInputs_noFile ht hlt (by simp), splitInputs_noFile ht hlt (by simp)]; rfl
    · rw [splitInputs_arg ht hlt, splitInputs_arg ht hlt, splitInputs_value ts]
      rfl

theorem splitInputs_rename {stop : Token → Bool} : ∀ ts : List Token, SameInputs f stop ts →
    splitInputs Token.value stop (ts.map (·.rename f)) = (splitInputs id stop ts).map (renamed f)
  | [], _ => rfl
  | t :: ts, h => by
    rw [SameInputs.eq_def] at h
    obtain ⟨hstop, h⟩ := h
    rw [List.map_cons]
    by_cases ht : stop t
    · rw [splitInputs_stop ht, splitInputs_stop (hstop.trans ht)]
      rfl
    have ht' : ¬stop (t.rename f) := by rwa [hstop]
    obtain ⟨hsame, hrest⟩ := h (by simpa using ht)
    by_cases hlt : t.value = str "<"
    · have hlt' : (t.rename f).value = str "<" := hsame.2 hlt
      rw [if_pos hlt] at hrest
      match ts, hrest with
      | .word w :: ts, hrest =>
        rw [splitInputs_file ht hlt, List.map_cons, Token.rename, splitInputs_file ht' hlt',
          splitInputs_rename ts hrest]
        rfl
      | [], _ => rw [splitInputs_noFile ht hlt (by simp), splitInputs_noFile ht' hlt' (by simp)]; rfl
      | .op o :: ts, _ =>
        rw [splitInputs_noFile ht hlt (by simp), splitInputs_noFile ht' hlt' (by simp [Token.rename])]
        rfl
    · rw [if_neg hlt] at hrest
      rw [splitInputs_arg ht hlt, splitInputs_arg ht' (mt hsame.1 hlt), splitInputs_rename ts hrest]
      rfl

/-- The input files are words. -/
theorem word_of_mem_files {stop : Token → Bool} : ∀ {ts : List Token} {t : Token},
    t ∈ (splitInputs id stop ts).files → ∃ w, t = .word w
  | u :: ts, t, h => by
    by_cases hu : stop u
    · rw [splitInputs_stop hu] at h
      cases h
    by_cases hlt : u.value = str "<"
    · match ts, h with
      | .word w :: ts, h =>
        rw [splitInputs_file hu hlt] at h
        rcases List.mem_cons.1 h with rfl | h
        · exact ⟨w, rfl⟩
        · exact word_of_mem_files h
      | [], h =>
        rw [splitInputs_noFile hu hlt (by simp)] at h
        cases h
      | .op o :: ts, h =>
        rw [splitInputs_noFile hu hlt (by simp)] at h
        cases h
    · rw [splitInputs_arg hu hlt] at h
      exact word_of_mem_files h

theorem SameOperator.isOutput_iff {t : Token} (h : SameOperator f t) :
    isOutput id (renamed f t) ↔ isOutput id t.value := or_congr h.1 h.2

theorem splitOutputs_rename : ∀ raw : List Token, SameOutputs f raw →
    splitOutputs id (raw.map (renamed f)) =
      (splitOutputs id (raw.map Token.value)).map
        (Prod.map (List.map f) (List.map (OutputFile.map f)))
  | [], _ => rfl
  | [t], ⟨hop, htext⟩ => by
    by_cases ht : isOutput id t.value
    · simp [splitOutputs, ht, hop.isOutput_iff]
    · have ht' : ¬isOutput id (renamed f t) := mt hop.isOutput_iff.1 ht
      have : renamed f t = f t.value := htext ht
      rw [List.map_singleton, List.map_singleton, splitOutputs, splitOutputs, if_neg ht, if_neg ht', this]
      rfl
  | t :: name :: raw, ⟨hop, h⟩ => by
    by_cases ht : isOutput id t.value
    · rw [if_pos (show isOutput Token.value t from ht)] at h
      have hname : renamed f name = f name.value := h.1
      have happend : (renamed f t = str ">>") = (t.value = str ">>") := propext hop.2
      simp only [List.map_cons, splitOutputs, ht, hop.isOutput_iff, ↓reduceIte,
        splitOutputs_rename raw h.2, Option.map_map]
      refine Option.map_congr fun r _ => ?_
      simp [OutputFile.map, hname, happend]
    · rw [if_neg (show ¬isOutput Token.value t from ht)] at h
      have htext : renamed f t = f t.value := h.1
      rw [List.map_cons, splitOutputs_arg (mt hop.isOutput_iff.1 ht), splitOutputs_rename (name :: raw) h.2,
        htext]
      conv_rhs => rw [List.map_cons, splitOutputs_arg ht]
      rw [Option.map_map, Option.map_map]
      rfl

/-- Both builders: what comes after the first loop commutes if the second loop does. -/
theorem bindOk_rename {simple : Bool} {ts : List Token} (h : SamePart f simple ts)
    {k : List Str × List Str → Option (Command Str)}
    (hk : ∀ argv argv' files, splitOutputs id argv' = (splitOutputs id argv).map
        (Prod.map (List.map f) (List.map (OutputFile.map f))) →
      k (argv', files.map f) = (k (argv, files)).map (Command.map f)) :
    bindOk (redirectLoop Token.value (stopsAt simple) [] [] (ts.map (·.rename f))) k =
      mapOk (Command.map f) (bindOk (redirectLoop Token.value (stopsAt simple) [] [] ts) k) := by
  obtain ⟨hin, hout⟩ := h
  have hfiles : ∀ t ∈ (splitInputs id (stopsAt simple) ts).files, renamed f t = f t.value := by
    intro t ht
    obtain ⟨w, rfl⟩ := word_of_mem_files ht
    rfl
  rw [redirectLoop_start, redirectLoop_start, splitInputs_rename ts hin, splitInputs_value,
    Inputs.result_map, Inputs.result_map, Inputs.result]
  generalize splitInputs id (stopsAt simple) ts = r at hout hfiles ⊢
  split
  · split
    · refine congrArg Except.ok ?_
      have := hk (r.argv.map Token.value) (r.argv.map (renamed f)) (r.files.map Token.value)
        (splitOutputs_rename r.argv hout)
      rw [List.map_map, ← List.map_congr_left (g := f ∘ Token.value) hfiles] at this
      exact this
    · rfl
  · rfl

/-- **A part that is read alike is built alike.** -/
theorem buildPart_rename {simple : Bool} {ts : List Token} (h : SamePart f simple ts) :
    buildPart simple (ts.map (·.rename f)) = mapOk (Command.map f) (buildPart simple ts) := by
  cases simple with
  | true =>
    change buildSimple Token.value id _ = mapOk _ (buildSimple Token.value id ts)
    rw [buildSimple_eq, buildSimple_eq]
    refine bindOk_rename h fun argv argv' files hs => ?_
    rw [finish, finish, hs, Option.map_map, Option.map_map]
    rfl
  | false =>
    change parsePipelineStage Token.value id _ = mapOk _ (parsePipelineStage Token.value id ts)
    rw [parsePipelineStage_eq, parsePipelineStage_eq]
    refine bindOk_rename h fun argv argv' files hs => ?_
    rw [finishStage, finishStage, finish, finish, hs]
    rcases splitOutputs id argv with _ | r
    · rfl
    · simp only [Option.map_some, Option.filter_some, Prod.map_fst, List.length_map]
      split <;> rfl

theorem buildStages_rename : ∀ tss : List (List Token), (∀ ts ∈ tss, SamePart f false ts) →
    buildStages Token.value id (tss.map (List.map (·.rename f))) =
      mapOk (List.map (Command.map f)) (buildStages Token.value id tss)
  | [], _ => rfl
  | ts :: tss, h => by
    obtain ⟨hts, htss⟩ := List.forall_mem_cons.1 h
    have hstage : parsePipelineStage Token.value id (ts.map (·.rename f)) =
        mapOk (Command.map f) (parsePipelineStage Token.value id ts) := buildPart_rename hts
    rw [List.map_cons, buildStages, buildStages, hstage, buildStages_rename tss htss]
    rcases parsePipelineStage Token.value id ts with e | _ | c
    · rfl
    · rfl
    · rcases buildStages Token.value id tss with e | _ | cs <;> rfl

theorem buildSegment_rename {start : List Token}
    (h : ∀ ts ∈ stages (segment start), SamePart f (!hasPipeline start) ts) :
    buildSegment (start.map (·.rename f)) = mapOk (List.map (Command.map f)) (buildSegment start) := by
  rw [buildSegment, buildSegment, hasPipeline_rename]
  cases hp : hasPipeline start with
  | true =>
    rw [hp] at h
    rw [if_pos rfl, if_pos rfl, parsePipeline_stages, parsePipeline_stages, segment_rename,
      stages_rename, buildStages_rename _ h]
  | false =>
    rw [hp, stages_of_simple hp] at h
    have hsimple : buildSimple Token.value id _ = mapOk _ (buildSimple Token.value id (segment start)) :=
      buildPart_rename (h _ (List.mem_singleton_self _))
    rw [if_neg (by decide), if_neg (by decide), ← buildSimple_segment, segment_rename, hsimple,
      ← buildSimple_segment start]
    rcases buildSimple Token.value id (segment start) with e | _ | c <;> rfl

end

/-! ## Which renamings commute -/

/-- Every word that is compared is read as the renamed word is. -/
def SameReading (f : Str → Str) (tokens : List Token) : Prop := EachPart (SamePart f) tokens

/-- No word of the line is taken for an operator. -/
def AsTyped (tokens : List Token) : Prop := EachPart ReadAsWords tokens

/-- The arrays are long enough for every part of the line. -/
def FitsArrays (tokens : List Token) : Prop :=
  EachPart (fun _ ts => HasRoom ts ∧ (inputs ts).length ≤ maxArgs) tokens

theorem Command.map_injective {f : Str → Str} (hf : Function.Injective f) :
    Function.Injective (Command.map f) := by
  have hout : Function.Injective (OutputFile.map f) := by
    rintro ⟨n, a⟩ ⟨m, b⟩ h
    simp only [OutputFile.map, OutputFile.mk.injEq] at h
    rw [hf h.1, h.2]
  rintro ⟨a, i, o⟩ ⟨a', i', o'⟩ h
  simp only [Command.map, Command.mk.injEq] at h
  rw [hf.list_map h.1, hf.list_map h.2.1, hout.list_map h.2.2]

section
variable {f : Str → Str} {tokens : List Token} (hparse : parsing tokens)
include hparse

/-- The parts of a line that is read as typed are those of the grammar. -/
theorem buildSegment_asTyped (hfits : FitsArrays tokens) (h : AsTyped tokens) {start : List Token}
    (hstart : start ∈ starts tokens) :
    buildSegment start = .ok (some ((stages (segment start)).map stageOf)) := by
  rw [buildSegment_eq_some, List.forall₂_map_right_iff, List.forall₂_same]
  intro ts hts
  rw [buildPart_stage (isStage_of_parsing hparse start hstart ts hts) (h start hstart ts hts),
    if_pos (hfits start hstart ts hts)]

/-- The same for the renamed line. -/
theorem buildSegment_renamed (hfits : FitsArrays tokens) (h : AsTyped (tokens.map (·.rename f)))
    {start : List Token} (hstart : start ∈ starts tokens) :
    buildSegment (start.map (·.rename f)) =
      .ok (some ((stages (segment start)).map fun ts => (stageOf ts).map f)) := by
  rw [buildSegment_eq_some, segment_rename, stages_rename, hasPipeline_rename,
    List.forall₂_map_left_iff, List.forall₂_map_right_iff, List.forall₂_same]
  intro ts hts
  have hroom := (hasRoom_rename (f := f)).2 (hfits start hstart ts hts)
  rw [buildPart_stage (isStage_of_parsing hparse start hstart ts hts).rename
    (eachPart_rename.1 h start hstart ts hts), if_pos hroom, stageOf_rename]

theorem commutes_of_asTyped (hfits : FitsArrays tokens) (h : AsTyped tokens)
    (h' : AsTyped (tokens.map (·.rename f))) : Commutes f tokens := by
  refine commutes_iff.2 fun start hstart => ?_
  rw [buildSegment_asTyped hparse hfits h hstart, buildSegment_renamed hparse hfits h' hstart, mapOk_some,
    List.map_map]
  rfl

/-- **When the commands commute with a renaming.**  For every accepted line and every `f`: they do if
    every word that is compared is read as the renamed one.  If the arrays are long enough, then for
    a line whose words are not taken for operators they do iff those of the renamed line are not,
    and for an injective `f` also the other way round. -/
theorem commands_rename_iff :
    (SameReading f tokens → Commutes f tokens) ∧
    (FitsArrays tokens → AsTyped tokens →
      (Commutes f tokens ↔ AsTyped (tokens.map (·.rename f)))) ∧
    (FitsArrays tokens → Function.Injective f → AsTyped (tokens.map (·.rename f)) →
      (Commutes f tokens ↔ AsTyped tokens)) := by
  refine ⟨fun h => commutes_iff.2 fun start hstart => buildSegment_rename (h start hstart), ?_, ?_⟩
  · intro hfits htyped
    refine ⟨fun h => eachPart_rename.2 fun start hstart ts hts => ?_,
      commutes_of_asTyped hparse hfits htyped⟩
    -- the renamed arguments and names are those of a command that is built
    have hbuilt := commutes_iff.1 h start hstart
    rw [buildSegment_asTyped hparse hfits htyped hstart, mapOk_some, List.map_map,
      buildSegment_eq_some, segment_rename, stages_rename, hasPipeline_rename,
      List.forall₂_map_left_iff, List.forall₂_map_right_iff, List.forall₂_same] at hbuilt
    have hkept := kept_of_buildPart (hbuilt ts hts)
    rw [Function.comp_apply, ← stageOf_rename] at hkept
    exact hkept
  · intro hfits hinj htyped
    refine ⟨fun h start hstart ts hts => ?_,
      fun h => commutes_of_asTyped hparse hfits h htyped⟩
    have hbuilt := (commutes_iff.1 h start hstart).symm
    rw [buildSegment_renamed hparse hfits htyped hstart] at hbuilt
    obtain ⟨cs, hcs⟩ : ∃ cs, buildSegment start = .ok (some cs) := by
      rcases hb : buildSegment start with e | _ | cs
      · rw [hb] at hbuilt; cases hbuilt
      · rw [hb] at hbuilt; cases hbuilt
      · exact ⟨cs, rfl⟩
    rw [hcs, mapOk_some] at hbuilt
    obtain rfl : cs = (stages (segment start)).map stageOf := by
      refine (Command.map_injective hinj).list_map ?_
      rw [List.map_map]
      exact Option.some.inj (Except.ok.inj hbuilt)
    rw [buildSegment_eq_some, List.forall₂_map_right_iff, List.forall₂_same] at hcs
    exact kept_of_buildPart (hcs ts hts)

end

/-- In `a > '>'` and `a < ';'` the quoted words are names of files: they may be renamed. -/
theorem commands_rename_names :
    Commutes (fun w => if w = str ">" then str "b" else w)
        [.word (str "a"), .op .gt, .word (str ">")] ∧
      Commutes (fun w => if w = str ";" then str "b" else w)
        [.word (str "a"), .op .lt, .word (str ";")] := by
  have hgt : AsTyped [.word (str "a"), .op .gt, .word (str ">")] := by unfold AsTyped EachPart; decide
  have hlt : AsTyped [.word (str "a"), .op .lt, .word (str ";")] := by unfold AsTyped EachPart; decide
  exact ⟨((commands_rename_iff rfl).2.1 (by unfold FitsArrays EachPart; decide) hgt).2
      (by unfold AsTyped EachPart; decide),
    ((commands_rename_iff rfl).2.1 (by unfold FitsArrays EachPart; decide) hlt).2
      (by unfold AsTyped EachPart; decide)⟩

/-- `echo '<'` prints no `<`: the command is not built, though that of `echo x`
    is. -/
theorem quoted_operator_redirects :
    lexing [] (str "echo '<'") = .ok (true, [.word (str "echo"), .word (str "<")]) ∧
      parsing [.word (str "echo"), .word (str "<")] = true ∧
      ¬Commutes (fun w => if w = str "<" then str "x" else w) [.word (str "echo"), .word (str "<")] := by
  refine ⟨rfl, rfl, fun h => ?_⟩
  have h' : [Except.ok (some [(⟨[str "echo", str "x"], [], []⟩ : Command Str)])] =
      [(.ok none : Except Fault _)] := h
  simp at h'

end CShell
